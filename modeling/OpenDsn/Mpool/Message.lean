import Mathlib.Data.List.Basic

/-!
# Messages

Addresses, messages and signed messages as the message pool reads them
(`chain/types/message.go`, `chain/types/signedmessage.go`), the constants of
`build` that bound them, and `ValidForBlockInclusion`.

Token amounts are integers of any size, as in the source. A `Nonce` counts the
messages of an account from 0 and is a natural number here. `GasLimit` is an
`int64` that the pool admits only up to `blockGasLimit`, far below its bound.
-/

namespace OpenDsn.Mpool

/-! ## Addresses and signatures -/

/-- An address that names a public key. -/
inductive KeyAddress where
  | secp256k1 (payload : Nat)
  | bls (payload : Nat)
deriving DecidableEq

/-- An address of `go-address`: the undefined one, or one of the protocols ID,
Actor, SECP256K1 and BLS. -/
inductive Address where
  | undef
  | id (actor : Nat)
  | actor (payload : Nat)
  | key (k : KeyAddress)
deriving DecidableEq

inductive SigType where
  | secp256k1
  | bls
  | other (code : Nat)
deriving DecidableEq

/-- The type of the signatures that verify for a key address. -/
def KeyAddress.sigType : KeyAddress → SigType
  | .secp256k1 _ => .secp256k1
  | .bls _ => .bls

structure Signature where
  type : SigType
  data : List UInt8
deriving DecidableEq

/-! ## Messages -/

structure Message where
  version : Nat
  toAddr : Address
  fromAddr : Address
  nonce : Nat
  value : Int
  gasLimit : Int
  gasFeeCap : Int
  gasPremium : Int
  method : Nat
  params : List UInt8
deriving DecidableEq

structure SignedMessage where
  message : Message
  signature : Signature
deriving DecidableEq

/-- A CID stands for the content it is the hash of. -/
inductive MsgCid where
  | message (m : Message)
  | signed (sm : SignedMessage)
deriving DecidableEq

def Message.cid (m : Message) : MsgCid := .message m

def SignedMessage.cid (sm : SignedMessage) : MsgCid :=
  if sm.signature.type = .bls then sm.message.cid else .signed sm

/-- The conversion `uint64(i)` of an `int64`. -/
def uint64 (i : Int) : Int := i % 18446744073709551616

def Message.requiredFunds (m : Message) : Int := m.gasFeeCap * uint64 m.gasLimit

/-! ## Validity -/

def blockGasLimit : Int := 10000000000

def blockMessageLimit : Nat := 10000

def minimumBaseFee : Int := 100

def totalFilecoinInt : Int := 2000000000 * 1000000000000000000

/-- The address of the all-zero BLS key. -/
def zeroAddress : Address := .key (.bls (0xc0 <<< 376))

inductive InclusionError where
  | versionUnsupported
  | toEmpty
  | invalidTo
  | fromEmpty
  | valueNegative
  | valueTooHigh
  | gasFeeCapNegative
  | gasPremiumNegative
  | gasFeeCapBelowPremium
  | gasLimitTooHigh (gasLimit : Int)
  | gasLimitTooLow (gasLimit minGas : Int)
deriving DecidableEq

/-- `ValidForBlockInclusion` at the newest network version, which is past
version 7. -/
def Message.validForBlockInclusion (m : Message) (minGas : Int) : Except InclusionError Unit :=
  if m.version ≠ 0 then .error .versionUnsupported
  else if m.toAddr = .undef then .error .toEmpty
  else if m.toAddr = zeroAddress then .error .invalidTo
  else if m.fromAddr = .undef then .error .fromEmpty
  else if m.value < 0 then .error .valueNegative
  else if m.value > totalFilecoinInt then .error .valueTooHigh
  else if m.gasFeeCap < 0 then .error .gasFeeCapNegative
  else if m.gasPremium < 0 then .error .gasPremiumNegative
  else if m.gasPremium > m.gasFeeCap then .error .gasFeeCapBelowPremium
  else if m.gasLimit > blockGasLimit then .error (.gasLimitTooHigh m.gasLimit)
  else if m.gasLimit < minGas then .error (.gasLimitTooLow m.gasLimit minGas)
  else .ok ()

/-! ## Errors of the pool -/

inductive MpoolError where
  | messageTooBig (size : Nat)
  | notValidForBlockInclusion (err : InclusionError)
  | invalidToAddr
  | messageValueTooHigh
  | gasFeeCapTooLow
  | blsSignatureSize
  | unrecognizedSignatureType (type : SigType)
  | mustResolveIdAddress
  | signatureInvalid
  | stateNonceLookup
  | nonceTooLow (minimum : Nat)
  | baseFee
  | baseFeeLowerBound (gasFeeCap lowerBound : Int)
  | senderBalance
  | notEnoughFunds (required balance : Int)
  | notEnoughFundsPending (required balance : Int)
  | resolveToKey (addr : Address)
  | putMessage
  | initialActorNonce
  | nonceGap (nonce nextNonce : Nat)
  | replaceAcrossGap (nonce nextNonce : Nat)
  | rbfTooLowPremium (fromAddr : Address) (nonce : Nat) (minPrice premium : Int)
  | alreadyInMpool (fromAddr : Address) (nonce : Nat)
  | tooManyPendingMessages
  | persistLocal
  | publish
  | reorgOps
  | replay
  | pruneCooldown
deriving DecidableEq

end OpenDsn.Mpool
