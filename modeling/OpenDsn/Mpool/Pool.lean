import OpenDsn.Chain.Reorg
import OpenDsn.Lib.Sort
import OpenDsn.Mpool.MsgSet

/-!
# The message pool

The state of `MessagePool` (`chain/messagepool/messagepool.go`) and the
operations that add and remove single messages. An operation that can fail
returns the pool it leaves behind next to its result, since the source keeps
what was changed before an error.

The chain, the stores and the cryptography are an `Env`: what they answer during
one operation. A key address resolves to itself, an ID address through the
lookback state; `pending` is only reached through resolved addresses and is
therefore keyed by key addresses.
-/

namespace OpenDsn.Mpool

open Lib Chain

structure Actor where
  nonce : Nat
  balance : Int

structure MpoolConfig where
  priorityAddrs : List Address
  sizeLimitHigh : Int
  sizeLimitLow : Int

/-- What the surroundings of the pool answer during one operation. -/
structure Env where
  /-- The account key of an ID address in the lookback state of a tipset. -/
  lookbackKey : Address → TipSet → Option KeyAddress
  /-- `GetActorAfter`: an actor in the state after a tipset. -/
  getActorAfter : Address → TipSet → Option Actor
  /-- `PutMessage` on a signed message. -/
  putSigned : SignedMessage → Bool
  /-- `PutMessage` on a message. -/
  putMessage : Message → Bool
  /-- `MessagesForBlock`: the BLS messages and the secp256k1 messages. -/
  messagesForBlock : BlockHeader → Option (List Message × List SignedMessage)
  loadTipSet : TipSetKey → Option TipSet
  chainComputeBaseFee : TipSet → Option Int
  pubSubPublish : SignedMessage → Bool
  /-- The length of the serialized message. -/
  size : SignedMessage → Nat
  /-- `PricelistByEpoch(epoch).OnChainMessage(m.ChainLength()).Total()`. -/
  onChainMessage : Nat → SignedMessage → Int
  /-- The BLS check of signature data for a message and a public key. -/
  hashVerify : List UInt8 → Message → Nat → Bool
  /-- The secp256k1 address that signature data for a message recovers to. -/
  ecRecover : List UInt8 → Message → Option Nat
  /-- The BLS signatures that are still cached. -/
  blsSigCache : Message → Option Signature
  localPut : SignedMessage → Bool
  localDelete : SignedMessage → Bool
  cfg : MpoolConfig
  /-- The order in which `range` visits a map. -/
  order : Arrangement
  /-- `sort.Slice`. -/
  sorter : Sorter

structure Pool where
  pending : Table KeyAddress MsgSet
  localAddrs : List KeyAddress
  localMsgs : Table MsgCid SignedMessage
  curTs : TipSet
  currentSize : Int

/-- `ResolveToKeyAddressAtFinality`. -/
def resolveToKey (env : Env) (ts : TipSet) : Address → Option KeyAddress
  | .key k => some k
  | .actor _ => none
  | addr => env.lookbackKey addr ts

/-! ## Checks on a message -/

def maxMessageSize : Nat := 65536

def blsSignatureBytes : Nat := 96

/-- `VerifyMsgSig`: `sigCacheKey`, then `sigs.Verify` for the sender. A BLS
signature needs the payload of a BLS address, a secp256k1 signature the address
of the recovered key. -/
def verifyMsgSig (env : Env) (m : SignedMessage) : Except MpoolError Unit :=
  match m.signature.type with
  | .other code => .error (.unrecognizedSignatureType (.other code))
  | .bls =>
      if m.signature.data.length ≠ blsSignatureBytes then .error .blsSignatureSize
      else
        match m.message.fromAddr with
        | .id _ => .error .mustResolveIdAddress
        | .key (.bls pk) =>
            if env.hashVerify m.signature.data m.message pk then .ok ()
            else .error .signatureInvalid
        | _ => .error .signatureInvalid
  | .secp256k1 =>
      match m.message.fromAddr with
      | .id _ => .error .mustResolveIdAddress
      | .key (.secp256k1 payload) =>
          if env.ecRecover m.signature.data m.message = some payload then .ok ()
          else .error .signatureInvalid
      | _ => .error .signatureInvalid

def checkMessage (env : Env) (m : SignedMessage) : Except MpoolError Unit :=
  if env.size m > maxMessageSize then .error (.messageTooBig (env.size m))
  else
    match m.message.validForBlockInclusion 0 with
    | .error err => .error (.notValidForBlockInclusion err)
    | .ok () =>
        if m.message.toAddr = .undef then .error .invalidToAddr
        else if ¬ m.message.value < totalFilecoinInt then .error .messageValueTooHigh
        else if m.message.gasFeeCap < minimumBaseFee then .error .gasFeeCapTooLow
        else verifyMsgSig env m

def getBaseFeeLowerBound (baseFee factor : Int) : Int :=
  if baseFee / factor < minimumBaseFee then minimumBaseFee else baseFee / factor

def baseFeeLowerBoundFactor : Int := 10

def baseFeeLowerBoundFactorConservative : Int := 100

/-- `verifyMsgBeforeAdd`; the result says whether to publish the message. A
tipset has a block, so the base fee is that of its first block. -/
def verifyMsgBeforeAdd (env : Env) (m : SignedMessage) (curTs : TipSet) (isLocal : Bool) :
    Except MpoolError Bool :=
  let minGas := env.onChainMessage (curTs.height + 1) m
  match m.message.validForBlockInclusion minGas with
  | .error err => .error (.notValidForBlockInclusion err)
  | .ok () =>
      let baseFee := (curTs.blks.head curTs.blks_ne).parentBaseFee
      let lowerBound := getBaseFeeLowerBound baseFee baseFeeLowerBoundFactorConservative
      if m.message.gasFeeCap < lowerBound then
        if isLocal then .ok false
        else .error (.baseFeeLowerBound m.message.gasFeeCap lowerBound)
      else .ok isLocal

section

variable (env : Env) (mp : Pool) (m : SignedMessage)

/-- `checkBalance`: the sender must cover the message, and the message together
with what else it has pending. -/
def checkBalance (curTs : TipSet) : Except MpoolError Unit :=
  match env.getActorAfter m.message.fromAddr curTs with
  | none => .error .senderBalance
  | some act =>
      let requiredFunds := m.message.requiredFunds
      if act.balance < requiredFunds then .error (.notEnoughFunds requiredFunds act.balance)
      else
        match resolveToKey env mp.curTs m.message.fromAddr with
        | none => .error (.resolveToKey m.message.fromAddr)
        | some ra =>
            let pendingFunds :=
              match mp.pending.get? ra with
              | some mset => mset.getRequiredFunds m.message.nonce
              | none => 0
            if act.balance < requiredFunds + pendingFunds then
              .error (.notEnoughFundsPending (requiredFunds + pendingFunds) act.balance)
            else .ok ()

/-! ## Adding -/

/-- The end of `addLocked`: the message goes into the sender's set, and
`currentSize` counts it when the set grew. -/
def addToMset (ra : KeyAddress) (mset : MsgSet) (m : SignedMessage) (strict untrusted : Bool) :
    Pool × Except MpoolError Unit :=
  match mset.add m strict untrusted with
  | .error err => (mp, .error err)
  | .ok (mset', incr) =>
      ({ mp with
          pending := mp.pending.insert ra mset'
          currentSize := if incr then mp.currentSize + 1 else mp.currentSize }, .ok ())

/-- `addLocked`. A sender without a set gets an empty one before the message is
looked at. -/
def addLocked (strict untrusted : Bool) : Pool × Except MpoolError Unit :=
  if env.putSigned m = false ∨ env.putMessage m.message = false then (mp, .error .putMessage)
  else
    match resolveToKey env mp.curTs m.message.fromAddr with
    | none => (mp, .error (.resolveToKey m.message.fromAddr))
    | some ra =>
        match mp.pending.get? ra with
        | some mset => addToMset mp ra mset m strict untrusted
        | none =>
            match env.getActorAfter m.message.fromAddr mp.curTs with
            | none => (mp, .error .initialActorNonce)
            | some act =>
                let mset := newMsgSet act.nonce
                addToMset { mp with pending := mp.pending.insert ra mset } ra mset m
                  strict untrusted

def addSkipChecks : Pool × Except MpoolError Unit :=
  addLocked env mp m false false

/-- `addLocal`: the sender becomes local and the message is persisted. -/
def addLocal : Pool × Except MpoolError Unit :=
  match resolveToKey env mp.curTs m.message.fromAddr with
  | none => (mp, .error (.resolveToKey m.message.fromAddr))
  | some ra =>
      if env.localPut m then
        ({ mp with
            localAddrs := mp.localAddrs.insert ra
            localMsgs := mp.localMsgs.insert m.cid m }, .ok ())
      else ({ mp with localAddrs := mp.localAddrs.insert ra }, .error .persistLocal)

/-- The checks of `addTs` and `addLoaded` before the pool is touched; the result
says whether to publish the message. -/
def checkBeforeAdd (curTs : TipSet) (isLocal : Bool) : Except MpoolError Bool :=
  match env.getActorAfter m.message.fromAddr curTs with
  | none => .error .stateNonceLookup
  | some act =>
      if act.nonce > m.message.nonce then .error (.nonceTooLow act.nonce)
      else
        match verifyMsgBeforeAdd env m curTs isLocal with
        | .error err => .error err
        | .ok publish =>
            match checkBalance env mp m curTs with
            | .error err => .error err
            | .ok () => .ok publish

/-- `addTs`. The limits of `strict` are asked for non-local messages only. -/
def addTs (curTs : TipSet) (isLocal untrusted : Bool) : Pool × Except MpoolError Bool :=
  match checkBeforeAdd env mp m curTs isLocal with
  | .error err => (mp, .error err)
  | .ok publish =>
      match addLocked env mp m (!isLocal) untrusted with
      | (mp, .error err) => (mp, .error err)
      | (mp, .ok ()) =>
          if isLocal then
            match addLocal env mp m with
            | (mp, .error err) => (mp, .error err)
            | (mp, .ok ()) => (mp, .ok publish)
          else (mp, .ok publish)

/-- The common body of `Push` and `PushUntrusted`. -/
def pushWith (untrusted : Bool) : Pool × Except MpoolError MsgCid :=
  match checkMessage env m with
  | .error err => (mp, .error err)
  | .ok () =>
      match addTs env mp m mp.curTs true untrusted with
      | (mp, .error err) => (mp, .error err)
      | (mp, .ok publish) =>
          if publish && !env.pubSubPublish m then (mp, .error .publish) else (mp, .ok m.cid)

def push : Pool × Except MpoolError MsgCid :=
  pushWith env mp m false

/-- `PushUntrusted`, the entry for the gateway. -/
def pushUntrusted : Pool × Except MpoolError MsgCid :=
  pushWith env mp m true

def add : Pool × Except MpoolError Unit :=
  match checkMessage env m with
  | .error err => (mp, .error err)
  | .ok () =>
      match addTs env mp m mp.curTs false false with
      | (mp, .error err) => (mp, .error err)
      | (mp, .ok _) => (mp, .ok ())

def addLoaded : Pool × Except MpoolError Unit :=
  match checkMessage env m with
  | .error err => (mp, .error err)
  | .ok () =>
      match checkBeforeAdd env mp m mp.curTs true with
      | .error err => (mp, .error err)
      | .ok _ => addLocked env mp m false false

end

/-- The loop of `loadLocal`. A message that cannot be added is passed over; a
sender that cannot be resolved ends the loop. -/
def loadLocalLoop (env : Env) (mp : Pool) : List SignedMessage → Pool × Except MpoolError Unit
  | [] => (mp, .ok ())
  | m :: rest =>
      match addLoaded env mp m with
      | (mp, .error (.nonceTooLow _)) => loadLocalLoop env mp rest
      | (mp, _) =>
          match resolveToKey env mp.curTs m.message.fromAddr with
          | none => (mp, .error (.resolveToKey m.message.fromAddr))
          | some ra => loadLocalLoop env { mp with localAddrs := mp.localAddrs.insert ra } rest

def loadLocal (env : Env) (mp : Pool) : Pool × Except MpoolError Unit :=
  loadLocalLoop env mp (env.order.arrange mp.localMsgs.values)

/-! ## Removing -/

/-- The end of `remove`: the message goes from the sender's set and from the
count, and a set that becomes empty is dropped. -/
def removeFromMset (mp : Pool) (ra : KeyAddress) (mset : MsgSet) (nonce : Nat) (applied : Bool) :
    Pool :=
  let mset' := mset.rm nonce applied
  { mp with
    pending := if mset'.msgs.size = 0 then mp.pending.erase ra else mp.pending.insert ra mset'
    currentSize :=
      if (mset.msgs.get? nonce).isSome then mp.currentSize - 1 else mp.currentSize }

def remove (env : Env) (mp : Pool) (fromAddr : Address) (nonce : Nat) (applied : Bool) : Pool :=
  match resolveToKey env mp.curTs fromAddr with
  | none => mp
  | some ra =>
      match mp.pending.get? ra with
      | none => mp
      | some mset => removeFromMset mp ra mset nonce applied

/-- The persisted messages of the local senders go. -/
def deleteLocalMsgs (env : Env) (mp : Pool) : Table MsgCid SignedMessage :=
  let pendingOf := fun la => ((mp.pending.get? la).map fun mset => mset.msgs.values).getD []
  (mp.localAddrs.flatMap pendingOf).foldl
    (fun stored m => if env.localDelete m then stored.erase m.cid else stored) mp.localMsgs

/-- `Clear`: everything, or every sender that is not local. -/
def clear (env : Env) (mp : Pool) (alsoLocal : Bool) : Pool :=
  if alsoLocal then { mp with localMsgs := deleteLocalMsgs env mp, pending := ∅ }
  else
    { mp with
      pending := mp.pending.eraseAll (mp.pending.keys.filter fun a => a ∉ mp.localAddrs) }

/-! ## What the operations do to the pending messages -/

/-- The pending message of a sender with a nonce. -/
def Pool.pendingAt (mp : Pool) (ra : KeyAddress) (nonce : Nat) : Option SignedMessage :=
  (mp.pending.get? ra).bind fun mset => mset.msgs.get? nonce

/-- The number of pending messages. -/
def Pool.count (mp : Pool) : Nat := mp.pending.total fun mset => mset.msgs.size

/-- How far `currentSize` is from the number of pending messages. -/
def Pool.drift (mp : Pool) : Int := mp.currentSize - mp.count

/-- `mp'` has the messages of `mp`. -/
structure Keeps (mp mp' : Pool) : Prop where
  curTs : mp'.curTs = mp.curTs
  drift : mp'.drift = mp.drift
  pendingAt : ∀ k n, mp'.pendingAt k n = mp.pendingAt k n

/-- `mp'` has the messages of `mp` with `m` in its place. -/
structure Puts (mp mp' : Pool) (ra : KeyAddress) (m : SignedMessage) : Prop where
  curTs : mp'.curTs = mp.curTs
  drift : mp'.drift = mp.drift
  pendingAt : ∀ k n, mp'.pendingAt k n =
    if k = ra ∧ n = m.message.nonce then some m else mp.pendingAt k n

/-- What an operation that adds a message leaves behind. -/
inductive AddEffect (env : Env) (mp : Pool) (m : SignedMessage) (mp' : Pool) : Prop
  | keeps : Keeps mp mp' → AddEffect env mp m mp'
  | puts {ra : KeyAddress} : resolveToKey env mp.curTs m.message.fromAddr = some ra →
      Puts mp mp' ra m → AddEffect env mp m mp'

section Effects

variable {env : Env} {mp mp' mp'' : Pool} {m : SignedMessage} {ra : KeyAddress}

theorem Keeps.refl (mp : Pool) : Keeps mp mp := ⟨rfl, rfl, fun _ _ => rfl⟩

theorem Keeps.trans (h : Keeps mp mp') (h' : Keeps mp' mp'') : Keeps mp mp'' :=
  ⟨h'.curTs.trans h.curTs, h'.drift.trans h.drift,
    fun k n => (h'.pendingAt k n).trans (h.pendingAt k n)⟩

theorem Keeps.puts (h : Keeps mp mp') (h' : Puts mp' mp'' ra m) : Puts mp mp'' ra m :=
  ⟨h'.curTs.trans h.curTs, h'.drift.trans h.drift, fun k n => by rw [h'.pendingAt, h.pendingAt]⟩

theorem Puts.keeps (h : Puts mp mp' ra m) (h' : Keeps mp' mp'') : Puts mp mp'' ra m :=
  ⟨h'.curTs.trans h.curTs, h'.drift.trans h.drift, fun k n => by rw [h'.pendingAt, h.pendingAt]⟩

/-- What follows an add and keeps the messages does not change its effect. -/
theorem AddEffect.followed (h : AddEffect env mp m mp') (hk : Keeps mp' mp'') :
    AddEffect env mp m mp'' := by
  cases h with
  | keeps h => exact .keeps (h.trans hk)
  | puts hr h => exact .puts hr (h.keeps hk)

theorem Keeps.precedes (hk : Keeps mp mp') (h : AddEffect env mp' m mp'') :
    AddEffect env mp m mp'' := by
  cases h with
  | keeps h => exact .keeps (hk.trans h)
  | puts hr h => exact .puts (by rw [← hk.curTs]; exact hr) (hk.puts h)

theorem AddEffect.drift (h : AddEffect env mp m mp') : mp'.drift = mp.drift := by
  cases h with
  | keeps h => exact h.drift
  | puts _ h => exact h.drift

end Effects

namespace PoolLemmas

open Table MsgSet

variable {env : Env} {mp mp' mp'' : Pool} {m : SignedMessage} {strict untrusted applied : Bool}
  {ra : KeyAddress} {mset : MsgSet}

section

variable (h : mp.pending.get? ra = some mset)
include h

theorem pendingAt_of_get? (n : Nat) : mp.pendingAt ra n = mset.msgs.get? n := by
  unfold Pool.pendingAt
  rw [h]
  rfl

/-- The count of a pool with one set replaced. -/
theorem count_replace (mset' : MsgSet) :
    (mp.pending.insert ra mset').total (fun ms : MsgSet => ms.msgs.size) + mset.msgs.size =
      mp.count + mset'.msgs.size := by
  have hcount := total_erase (fun ms : MsgSet => ms.msgs.size) h
  unfold Pool.count
  rw [total_insert, hcount]
  omega

/-- A successful add to a set of the pool. -/
theorem addToMset_puts {incr : Bool} {mset' : MsgSet}
    (hadd : mset.add m strict untrusted = .ok (mset', incr)) :
    Puts mp (addToMset mp ra mset m strict untrusted).1 ra m := by
  obtain ⟨hset, hincr⟩ := add_ok hadd
  have hmsgs : mset'.msgs = mset.msgs.insert m.message.nonce m := congrArg msgs hset
  unfold addToMset
  rw [hadd]
  refine ⟨rfl, ?_, fun k n => ?_⟩
  · have hcount := count_replace h mset'
    unfold Pool.drift
    show (if incr = true then mp.currentSize + 1 else mp.currentSize) -
      ((mp.pending.insert ra mset').total (fun ms : MsgSet => ms.msgs.size) : Nat) = _
    rw [hincr]
    cases hl : mset.msgs.get? m.message.nonce with
    | none =>
      rw [hmsgs, size_insert_of_none hl] at hcount
      simp only [Option.isNone_none, if_true]
      omega
    | some exms =>
      rw [hmsgs, size_insert_of_some hl] at hcount
      simp only [Option.isNone_some, Bool.false_eq_true, if_false]
      omega
  · show ((mp.pending.insert ra mset').get? k).bind _ = _
    rw [get?_insert]
    by_cases hk : k = ra
    · subst hk
      rw [pendingAt_of_get? h, if_pos rfl]
      show mset'.msgs.get? n = _
      rw [hmsgs, get?_insert]
      simp
    · rw [if_neg hk, if_neg fun hc => hk hc.1]
      rfl

theorem addToMset_effect (hra : resolveToKey env mp.curTs m.message.fromAddr = some ra) :
    AddEffect env mp m (addToMset mp ra mset m strict untrusted).1 := by
  cases hadd : mset.add m strict untrusted with
  | error err =>
    unfold addToMset
    rw [hadd]
    exact .keeps (Keeps.refl mp)
  | ok res => exact .puts hra (addToMset_puts h hadd)

end

/-- A sender's new, empty set holds no message. -/
theorem newMset_keeps (nonce : Nat) (h : mp.pending.get? ra = none) :
    Keeps mp { mp with pending := mp.pending.insert ra (newMsgSet nonce) } := by
  refine ⟨rfl, ?_, fun k n => ?_⟩
  · unfold Pool.drift Pool.count
    rw [total_insert_of_none _ h]
    simp [newMsgSet, size]
  · show ((mp.pending.insert ra (newMsgSet nonce)).get? k).bind _ = _
    rw [get?_insert]
    unfold Pool.pendingAt
    split
    · next hk => rw [hk, h]; rfl
    · rfl

theorem addLocked_effect (env : Env) (mp : Pool) (m : SignedMessage) (strict untrusted : Bool) :
    AddEffect env mp m (addLocked env mp m strict untrusted).1 := by
  unfold addLocked
  split
  · exact .keeps (Keeps.refl mp)
  · cases hra : resolveToKey env mp.curTs m.message.fromAddr with
    | none => exact .keeps (Keeps.refl mp)
    | some ra =>
      dsimp only
      cases hms : mp.pending.get? ra with
      | some mset => exact addToMset_effect hms hra
      | none =>
        cases hact : env.getActorAfter m.message.fromAddr mp.curTs with
        | none => exact .keeps (Keeps.refl mp)
        | some act =>
          exact (newMset_keeps act.nonce hms).precedes (addToMset_effect get?_insert_self hra)

/-- Without `strict`, a message whose nonce is free is taken. -/
theorem addLocked_free {act : Actor} (hsigned : env.putSigned m = true)
    (hmessage : env.putMessage m.message = true)
    (hra : resolveToKey env mp.curTs m.message.fromAddr = some ra)
    (hact : env.getActorAfter m.message.fromAddr mp.curTs = some act)
    (hfree : mp.pendingAt ra m.message.nonce = none) (untrusted : Bool) :
    Puts mp (addLocked env mp m false untrusted).1 ra m := by
  unfold addLocked
  simp only [hsigned, hmessage, Bool.true_eq_false, or_self, if_false, hra, hact]
  cases hms : mp.pending.get? ra with
  | some mset =>
    rw [pendingAt_of_get? hms] at hfree
    obtain ⟨mset', hadd⟩ : ∃ ms', mset.add m false untrusted = .ok (ms', true) :=
      add_of_free hfree (absurd · Bool.false_ne_true)
    exact addToMset_puts hms hadd
  | none =>
    have hnew := newMset_keeps act.nonce hms
    obtain ⟨mset', hadd⟩ : ∃ ms', (newMsgSet act.nonce).add m false untrusted = .ok (ms', true) :=
      add_of_free rfl (absurd · Bool.false_ne_true)
    exact hnew.puts (addToMset_puts get?_insert_self hadd)

section

variable (env mp m)

theorem addLocal_keeps : Keeps mp (addLocal env mp m).1 := by
  unfold addLocal
  split
  · exact Keeps.refl mp
  · split <;> exact ⟨rfl, rfl, fun _ _ => rfl⟩

theorem addTs_effect (curTs : TipSet) (isLocal untrusted : Bool) :
    AddEffect env mp m (addTs env mp m curTs isLocal untrusted).1 := by
  unfold addTs
  split
  · exact .keeps (Keeps.refl mp)
  · have heff := addLocked_effect env mp m (!isLocal) untrusted
    split
    · next hadd => rw [hadd] at heff; exact heff
    · next mp' hadd =>
      rw [hadd] at heff
      split
      · have hloc := addLocal_keeps env mp' m
        split <;> next hl => rw [hl] at hloc; exact heff.followed hloc
      · exact heff

theorem pushWith_effect (untrusted : Bool) :
    AddEffect env mp m (pushWith env mp m untrusted).1 := by
  unfold pushWith
  split
  · exact .keeps (Keeps.refl mp)
  · have heff := addTs_effect env mp m mp.curTs true untrusted
    split
    · next hadd => rw [hadd] at heff; exact heff
    · next hadd =>
      rw [hadd] at heff
      split <;> exact heff

theorem add_effect : AddEffect env mp m (add env mp m).1 := by
  unfold add
  split
  · exact .keeps (Keeps.refl mp)
  · have heff := addTs_effect env mp m mp.curTs false false
    split <;> next hadd => rw [hadd] at heff; exact heff

theorem addLoaded_effect : AddEffect env mp m (addLoaded env mp m).1 := by
  unfold addLoaded
  split
  · exact .keeps (Keeps.refl mp)
  · split
    · exact .keeps (Keeps.refl mp)
    · exact addLocked_effect env mp m false false

theorem loadLocalLoop_drift (msgs : List SignedMessage) :
    (loadLocalLoop env mp msgs).1.drift = mp.drift := by
  induction msgs generalizing mp with
  | nil => rfl
  | cons m rest ih =>
    have heff := (addLoaded_effect env mp m).drift
    unfold loadLocalLoop
    split
    · next hadd => rw [hadd] at heff; rw [ih, heff]
    · next hadd =>
      rw [hadd] at heff
      split
      · exact heff
      · rw [ih]; exact heff

end

/-! ## Removing -/

theorem removeFromMset_drift (h : mp.pending.get? ra = some mset) (nonce : Nat) :
    (removeFromMset mp ra mset nonce applied).drift = mp.drift := by
  have hcount : (removeFromMset mp ra mset nonce applied).count + mset.msgs.size =
      mp.count + (mset.rm nonce applied).msgs.size := by
    unfold removeFromMset Pool.count
    dsimp only
    split
    · next hsize =>
      rw [hsize, total_erase (fun ms : MsgSet => ms.msgs.size) h]
      omega
    · exact count_replace h _
  unfold Pool.drift
  show (if (mset.msgs.get? nonce).isSome then mp.currentSize - 1 else mp.currentSize) - _ = _
  cases hl : mset.msgs.get? nonce with
  | none =>
    rw [rm_msgs, erase_of_get?_none hl] at hcount
    simp only [Option.isSome_none, Bool.false_eq_true, if_false]
    omega
  | some m =>
    rw [rm_size hl applied] at hcount
    simp only [Option.isSome_some, if_true]
    omega

theorem pendingAt_removeFromMset (h : mp.pending.get? ra = some mset) (nonce : Nat)
    (k : KeyAddress) (n : Nat) :
    (removeFromMset mp ra mset nonce applied).pendingAt k n =
      if k = ra ∧ n = nonce then none else mp.pendingAt k n := by
  have hmsgs : (mset.rm nonce applied).msgs.get? n =
      if n = nonce then none else mset.msgs.get? n := by
    rw [rm_msgs, get?_erase]
  unfold removeFromMset
  unfold Pool.pendingAt
  dsimp only
  by_cases hk : k = ra
  · subst hk
    rw [h]
    simp only [true_and, Option.bind_some]
    rw [← hmsgs]
    split
    · next hsize =>
      rw [get?_erase, if_pos rfl, size_eq_zero_iff.mp hsize n]
      rfl
    · rw [get?_insert_self]
      rfl
  · have hne : ¬ (k = ra ∧ n = nonce) := fun hc => hk hc.1
    split
    · rw [get?_erase, if_neg hk]
    · rw [get?_insert, if_neg hk]

variable (env mp) (addr : Address) (nonce : Nat) (applied : Bool)

theorem remove_drift : (remove env mp addr nonce applied).drift = mp.drift := by
  unfold remove
  split
  · rfl
  · split
    · rfl
    · next h => exact removeFromMset_drift h nonce

theorem remove_curTs : (remove env mp addr nonce applied).curTs = mp.curTs := by
  unfold remove
  split
  · rfl
  · split <;> rfl

/-- `remove` takes the message with this nonce out, if there is one. -/
theorem pendingAt_remove (k : KeyAddress) (n : Nat) :
    (remove env mp addr nonce applied).pendingAt k n =
      if resolveToKey env mp.curTs addr = some k ∧ n = nonce then none else mp.pendingAt k n := by
  unfold remove
  cases hra : resolveToKey env mp.curTs addr with
  | none => simp
  | some ra =>
    simp only [Option.some.injEq]
    cases hms : mp.pending.get? ra with
    | none =>
      dsimp only
      split
      · next h => rw [← h.1]; simp [Pool.pendingAt, hms]
      · rfl
    | some mset =>
      rw [pendingAt_removeFromMset hms]
      simp only [eq_comm]

end PoolLemmas

/-! ## Example surroundings (used by the concrete runs of later modules) -/

/-- The key of the account that sends the example messages. -/
def payer : KeyAddress := .secp256k1 0

/-- Surroundings in which nothing fails: accounts and signed messages of blocks as
given, no BLS message, and ID address 0 in the place of the key of `payer`. -/
def calmEnv (actors : Address → TipSet → Option Actor) (blocks : BlockHeader → List SignedMessage)
    (load : TipSetKey → Option TipSet) : Env where
  lookbackKey addr _ := if addr = .id 0 then some payer else none
  getActorAfter := actors
  putSigned _ := true
  putMessage _ := true
  messagesForBlock b := some ([], blocks b)
  loadTipSet := load
  chainComputeBaseFee _ := some 100
  pubSubPublish _ := true
  size _ := 200
  onChainMessage _ _ := 1000
  hashVerify _ _ _ := false
  ecRecover _ _ := some 0
  blsSigCache _ := none
  localPut _ := true
  localDelete _ := true
  cfg := ⟨[], 30000, 20000⟩
  order := Arrangement.listed
  sorter := stableSorter

def emptyPool (ts : TipSet) : Pool where
  pending := ∅
  localAddrs := []
  localMsgs := ∅
  curTs := ts
  currentSize := 0

def transfer (addr : Address) (nonce : Nat) : SignedMessage where
  message := ⟨0, .id 1000, addr, nonce, 0, 2000000, 1000, 500, 0, []⟩
  signature := ⟨.secp256k1, List.replicate 65 0⟩

/-! ## Rejected messages -/

/-- A message that `addLocked` rejects leaves the pool as it was, exactly unless it was stored, its
sender has no set yet and a strict call finds it beyond the gap. -/
theorem addLocked_error_iff {env : Env} {mp : Pool} {m : SignedMessage} {strict untrusted : Bool}
    {err : MpoolError} (h : (addLocked env mp m strict untrusted).2 = .error err) :
    (addLocked env mp m strict untrusted).1 = mp ↔
      (env.putSigned m = true → env.putMessage m.message = true →
        ∀ ra act, resolveToKey env mp.curTs m.message.fromAddr = some ra →
          mp.pending.get? ra = none → env.getActorAfter m.message.fromAddr mp.curTs = some act →
          strict = true → m.message.nonce ≤ act.nonce + MsgSet.gapLimit untrusted) := by
  unfold addLocked at h ⊢
  split
  · next hput => exact iff_of_true rfl fun hsigned hmessage => by simp [hsigned, hmessage] at hput
  next hput =>
  rw [if_neg hput] at h
  cases hra : resolveToKey env mp.curTs m.message.fromAddr with
  | none => exact iff_of_true rfl fun _ _ _ _ hra => by cases hra
  | some ra =>
    simp only [hra] at h
    dsimp only
    cases hms : mp.pending.get? ra with
    | some mset =>
      simp only [hms, addToMset] at h ⊢
      refine iff_of_true ?_ fun _ _ ra' act hra' hnone => ?_
      · cases hadd : mset.add m strict untrusted with
        | error err => rfl
        | ok res => simp [hadd] at h
      · cases hra'
        rw [hms] at hnone
        cases hnone
    | none =>
      cases hact : env.getActorAfter m.message.fromAddr mp.curTs with
      | none => exact iff_of_true rfl fun _ _ _ _ _ _ hact => by cases hact
      | some act =>
        simp only [hms, hact, addToMset] at h ⊢
        refine iff_of_false ?_ fun hgap => ?_
        · -- the set of the sender stays
          cases hadd : (newMsgSet act.nonce).add m strict untrusted with
          | error err =>
            intro hpool
            have hget := congrArg (·.pending.get? ra) hpool
            dsimp only at hget
            rw [Table.get?_insert_self, hms] at hget
            cases hget
          | ok res => simp [hadd] at h
        · have hlimit : 0 < MsgSet.pendingLimit untrusted := by cases untrusted <;> decide
          obtain ⟨mset', hadd⟩ : ∃ ms', (newMsgSet act.nonce).add m strict untrusted =
              .ok (ms', true) := by
            refine MsgSet.add_of_free rfl fun hs => ⟨?_, hlimit⟩
            exact hgap (by simp_all) (by simp_all) ra act rfl hms rfl hs
          simp [hadd] at h

/-- A chain with one account that has sent nothing. -/
def openEnv : Env := calmEnv (fun _ _ => some ⟨0, 0⟩) (fun _ => []) forkLoad

theorem addLocked_error_known :
    let mp := (addLocked openEnv (emptyPool rootTs) (transfer (.key payer) 0) true false).1
    (addLocked openEnv mp (transfer (.key payer) 9) true false).1 = mp :=
  (addLocked_error_iff (show _ = Except.error (.nonceGap 9 1) from rfl)).mpr
    fun _ _ _ _ hra hnone => by
      cases hra
      cases hnone

/-- A new sender whose message is beyond the gap stays in the pool with an empty set. -/
theorem addLocked_error_new :
    addLocked openEnv (emptyPool rootTs) (transfer (.key payer) 5) true false =
      ({ emptyPool rootTs with pending := Table.insert ∅ payer (newMsgSet 0) },
        .error (.nonceGap 5 0)) :=
  rfl

end OpenDsn.Mpool
