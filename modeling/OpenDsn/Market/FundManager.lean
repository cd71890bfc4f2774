import Mathlib.Algebra.Ring.Int.Defs
import OpenDsn.Lib.Run
import OpenDsn.Lib.Table
import OpenDsn.Mpool.Message

/-!
# The fund manager

`chain/market/fundmanager.go`: for each address of the storage market the manager keeps the
amount that is reserved for deals. Requests to reserve, release and withdraw are queued.
One processing step serves the reservations of one wallet together with all releases, sends
at most one message, and leaves the rest to later steps.

A step holds the lock of its address. No request is cancelled, so `Amount` is the amount of
a request. `Complete` closes a channel of the request, and panics on a request that is
complete already: such a step has no result. An address also keeps what a run leaves
behind: the results of requests and the messages on their way.
-/

namespace OpenDsn.Market

open Lib Mpool

abbrev MsgCid := Nat

/-! ## Requests -/

/-- A request, with a number of its own. A release has no wallet. -/
structure FundRequest where
  id : Nat
  wallet : Address
  amt : Int

inductive RequestKind
  | reservation
  | release
  | withdrawal
deriving DecidableEq

inductive FundErr
  /-- The balance in the market was not read. -/
  | availableFunds
  /-- The message was not built or not pushed. -/
  | pushFailed
  /-- "insufficient funds for withdrawal of %s: net available (%s) = available (%s) -
  reserved (%s)", and " - queued withdrawals (%s)" if there are any. -/
  | insufficientFunds (amt netAvail avail reserved queued : Int)
deriving DecidableEq

/-- A call of `Complete`. -/
structure Completion where
  kind : RequestKind
  req : FundRequest
  msgCid : Option MsgCid
  err : Option FundErr

def completions (kind : RequestKind) (reqs : List FundRequest) (msgCid : Option MsgCid)
    (err : Option FundErr) : List Completion :=
  reqs.map (⟨kind, ·, msgCid, err⟩)

/-- Calls of `Complete` one after another; `none` if a channel is closed twice. -/
def completeAll (completed : List Completion) : List Completion → Option (List Completion)
  | [] => some completed
  | c :: calls =>
      if completed.any (·.req.id = c.req.id) then none
      else completeAll (completed ++ [c]) calls

/-- A batch takes its wallet from its first request. -/
def batchWith (batchWallet wallet : Address) : Address :=
  if batchWallet = .undef then wallet else batchWallet

/-! ## Reservations and releases -/

/-- The variables of the loop of `splitReservations`. -/
structure Split where
  toCancel : List FundRequest
  toAdd : List FundRequest
  toAddAmt : Int
  releaseAmt : Int
  batchWallet : Address

/-- A reservation is covered by releases, or is added if its wallet is the one of the
batch. -/
def Split.next (s : Split) (req : FundRequest) : Split :=
  if req.amt ≤ s.releaseAmt then
    { s with
      releaseAmt := s.releaseAmt - req.amt
      toCancel := s.toCancel ++ [req] }
  else
    let batchWallet := batchWith s.batchWallet req.wallet
    if batchWallet = req.wallet then
      { s with
        batchWallet := batchWallet
        toAddAmt := s.toAddAmt + (req.amt - s.releaseAmt)
        releaseAmt := 0
        toAdd := s.toAdd ++ [req] }
    else { s with batchWallet := batchWallet }

def amounts (reqs : List FundRequest) : Int := (reqs.map FundRequest.amt).sum

def splitReservations (reservations releases : List FundRequest) : Split :=
  reservations.foldl Split.next ⟨[], [], 0, amounts releases, .undef⟩

def Split.reservedDelta (s : Split) : Int := s.toAddAmt - s.releaseAmt

/-- The keeper of the requests and the reserved amount of an address. -/
structure FundedAddress where
  amtReserved : Int
  msgCid : Option MsgCid
  reservations : List FundRequest
  releases : List FundRequest
  withdrawals : List FundRequest
  /-- The number of the next request. -/
  nextReq : Nat
  completed : List Completion
  /-- Messages that a goroutine waits for. -/
  waits : List MsgCid
  /-- Messages that were sent and have not completed. -/
  inFlight : List MsgCid

def newFundedAddress : FundedAddress := ⟨0, none, [], [], [], 0, [], [], []⟩

/-- What a step meets outside of the manager. Balances are read and messages pushed for
reservations and for withdrawals. -/
structure ProcessEnv where
  reserveAvail : Option Int
  withdrawAvail : Option Int
  addFunds : (wallet : Address) → (amt : Int) → Option MsgCid
  withdrawFunds : (wallet : Address) → (amt : Int) → Option MsgCid

structure ProcessResult where
  covered : List FundRequest
  added : List FundRequest
  amtReserved : Int
  msgCid : Option MsgCid

/-- The reserved amount after a split, which does not go below zero. -/
def newReserved (a : FundedAddress) (split : Split) : Int :=
  let reserved := a.amtReserved + split.reservedDelta
  if reserved < 0 then 0 else reserved

/-- The balance is only read if there is something to add. -/
def amtToAdd (env : ProcessEnv) (split : Split) (reserved : Int) : Except FundErr Int :=
  if split.toAdd ≠ [] ∧ reserved > 0 then
    match env.reserveAvail with
    | none => .error .availableFunds
    | some avail => .ok (reserved - avail)
  else .ok 0

/-- The wallet of the first request. -/
def firstWallet (reqs : List FundRequest) : Address :=
  match reqs with
  | [] => .undef
  | req :: _ => req.wallet

section

variable (env : ProcessEnv) (a : FundedAddress)

def processReservations : Except FundErr ProcessResult :=
  let split := splitReservations a.reservations a.releases
  let reserved := newReserved a split
  match amtToAdd env split reserved with
  | .error e => .error e
  | .ok amt =>
      if amt ≤ 0 then .ok ⟨split.toCancel ++ split.toAdd, [], reserved, none⟩
      else
        match env.addFunds (firstWallet split.toAdd) amt with
        | none => .error .pushFailed
        | some cid => .ok ⟨split.toCancel, split.toAdd, reserved, some cid⟩

/-- The deferred calls of `processReservations`. -/
def reservationCalls : Except FundErr ProcessResult → List Completion
  | .error e =>
      completions .reservation a.reservations none (some e) ++
        completions .release a.releases none (some e)
  | .ok pr =>
      completions .release a.releases none none ++
        (completions .reservation pr.covered none none ++ match pr.msgCid with
          | none => []
          | some cid => completions .reservation pr.added (some cid) none)

/-! ## Withdrawals -/

/-- The variables of the loop of `processWithdrawals`, and the calls of `Complete` so far. -/
structure Withdrawing where
  withdrawalAmt : Int
  allowedAmt : Int
  allowed : List FundRequest
  batchWallet : Address
  calls : List Completion

/-- A withdrawal of nothing is done, one that exceeds the balance gets an error, and one of
another wallet has to wait. -/
def Withdrawing.next (avail reserved : Int) (s : Withdrawing) (req : FundRequest) : Withdrawing :=
  let netAvail := avail - reserved
  if req.amt = 0 then { s with calls := s.calls ++ [⟨.withdrawal, req, none, none⟩] }
  else if s.withdrawalAmt + req.amt > netAvail then
    { s with
      calls := s.calls ++ [⟨.withdrawal, req, none, some
        (.insufficientFunds req.amt (netAvail - s.withdrawalAmt) avail reserved s.withdrawalAmt)⟩] }
  else
    let batchWallet := batchWith s.batchWallet req.wallet
    if req.wallet ≠ batchWallet then { s with batchWallet := batchWallet }
    else
      { s with
        batchWallet := batchWallet
        withdrawalAmt := s.withdrawalAmt + req.amt
        allowed := s.allowed ++ [req]
        allowedAmt := s.allowedAmt + req.amt }

/-- The message, if one was sent, and the calls of `Complete`. An error is reported to all
withdrawals, also to those that are complete. -/
def processWithdrawals : Except FundErr (Option MsgCid) × List Completion :=
  match env.withdrawAvail with
  | none =>
      (.error .availableFunds, completions .withdrawal a.withdrawals none (some .availableFunds))
  | some avail =>
      let w := a.withdrawals.foldl (Withdrawing.next avail a.amtReserved) ⟨0, 0, [], .undef, []⟩
      if w.allowedAmt = 0 then
        (.ok none, w.calls ++ completions .withdrawal w.allowed none none)
      else
        match env.withdrawFunds (firstWallet w.allowed) w.allowedAmt with
        | none =>
            (.error .pushFailed,
              w.calls ++ completions .withdrawal a.withdrawals none (some .pushFailed))
        | some cid => (.ok (some cid), w.calls ++ completions .withdrawal w.allowed (some cid) none)

/-! ## Steps -/

def filterOutProcessedReqs (completed : List Completion) (reqs : List FundRequest) :
    List FundRequest :=
  reqs.filter fun req => !completed.any (·.req.id = req.id)

/-- A message is sent, or none. -/
def FundedAddress.sent (msgCid : Option MsgCid) : FundedAddress :=
  { a with msgCid := msgCid, inFlight := a.inFlight ++ msgCid.toList }

/-- The reservations and releases of a step. -/
def stepReservations : Option FundedAddress :=
  let result := processReservations env a
  (completeAll a.completed (reservationCalls a result)).map fun completed =>
    let a' := match result with
      | .error _ => a
      | .ok pr => { a.sent pr.msgCid with amtReserved := pr.amtReserved }
    { a' with
      completed := completed
      reservations := filterOutProcessedReqs completed a.reservations
      releases := filterOutProcessedReqs completed a.releases }

/-- The withdrawals of a step. -/
def stepWithdrawals : Option FundedAddress :=
  match processWithdrawals env a with
  | (result, calls) =>
      (completeAll a.completed calls).map fun completed =>
        let a' := match result with
          | .ok (some cid) => a.sent (some cid)
          | _ => a
        { a' with
          completed := completed
          withdrawals := filterOutProcessedReqs completed a.withdrawals }

/-- A goroutine waits for the message, if there is one. -/
def startWaitForResults : FundedAddress :=
  { a with waits := a.waits ++ a.msgCid.toList }

def process : Option FundedAddress :=
  if a.msgCid ≠ none then some a
  else
    let haveReservations := a.reservations ≠ [] ∨ a.releases ≠ []
    let haveWithdrawals := a.withdrawals ≠ []
    (if haveReservations then stepReservations env a else some a).bind fun a =>
      (if haveWithdrawals ∧ a.msgCid = none ∧ a.reservations = [] then stepWithdrawals env a
        else some a).map startWaitForResults

end

/-! ## Events -/

/-- The wait for a message is over, since the message has completed or since the wait has
failed. In both cases the next message may be sent. -/
inductive AddressEvent
  | reserve (wallet : Address) (amt : Int)
  | release (amt : Int)
  | withdraw (wallet : Address) (amt : Int)
  | process (env : ProcessEnv)
  | msgComplete (cid : MsgCid)
  | waitFailed (cid : MsgCid)

/-- `clearWaitState`, after which the step of the goroutine is an event of its own. -/
def clearWaitState (a : FundedAddress) (cid : MsgCid) : FundedAddress :=
  { a with msgCid := none, waits := a.waits.erase cid }

def addressStep (a : FundedAddress) : AddressEvent → Option FundedAddress
  | .reserve wallet amt => some
      { a with
        reservations := a.reservations ++ [⟨a.nextReq, wallet, amt⟩]
        nextReq := a.nextReq + 1 }
  | .release amt => some
      { a with
        releases := a.releases ++ [⟨a.nextReq, .undef, amt⟩]
        nextReq := a.nextReq + 1 }
  | .withdraw wallet amt => some
      { a with
        withdrawals := a.withdrawals ++ [⟨a.nextReq, wallet, amt⟩]
        nextReq := a.nextReq + 1 }
  | .process env => process env a
  | .msgComplete cid =>
      if cid ∈ a.waits then
        some { clearWaitState a cid with inFlight := a.inFlight.erase cid }
      else none
  | .waitFailed cid => if cid ∈ a.waits then some (clearWaitState a cid) else none

/-- The addresses of a manager. -/
abbrev FundManager := Table Address FundedAddress

def getFundedAddress (fm : FundManager) (addr : Address) : FundedAddress :=
  (fm.get? addr).getD newFundedAddress

def getReserved (fm : FundManager) (addr : Address) : Int := (getFundedAddress fm addr).amtReserved

/-- An event at an address; `none` for a panic, or a wait that there is not. -/
def fundManagerStep (fm : FundManager) (event : Address × AddressEvent) : Option FundManager :=
  (addressStep (getFundedAddress fm event.1) event.2).map (fm.insert event.1 ·)

end OpenDsn.Market
