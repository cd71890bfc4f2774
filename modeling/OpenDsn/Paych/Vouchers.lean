import Mathlib.Algebra.Order.BigOperators.Group.Finset
import Mathlib.Algebra.Ring.Int.Defs
import OpenDsn.Lib.Except
import OpenDsn.Paych.Store

/-!
# Vouchers

`paychmgr/paych.go`: vouchers are created and added to a channel one after another, each
on a lane. A voucher is checked against the lanes as they are on chain with the stored
vouchers applied on top, and against the balance of the channel.

Calls are on one channel, whose state on chain does not change. A run of them keeps the
deltas that `addVoucherUnlocked` returns; `createVoucher` drops its delta.

* `laneState_snoc`, `totalRedeemedWithVoucher_eq`: the lane states and their total with one
  more voucher;
* `vouchers_ordered`: on each lane nonces and amounts go up, the latest amounts are covered
  by the balance, and the deltas add up to what the lane has gained.
-/

namespace OpenDsn.Paych

open Lib Mpool List

/-! ## Lanes -/

structure LaneState where
  redeemed : Int
  nonce : Nat

/-- The state of a channel on chain, with the balance of its actor and the key address of
its creator. What was redeemed is not negative. -/
structure PaychState where
  fromKey : Address
  balance : Nat
  lanes : Table Nat LaneState
  redeemed_nonneg : ∀ lane ls, lanes.get? lane = some ls → 0 ≤ ls.redeemed

/-- The wallet, and the check of a signature over the other fields of a voucher. -/
structure VoucherEnv where
  walletSign : Address → SignedVoucher → Option (List UInt8)
  verify : Option (List UInt8) → Address → SignedVoucher → Bool

inductive VoucherErr
  /-- "voucher ChannelAddr doesn't match channel address, got %s, expected %s" -/
  | channelAddrMismatch (got expected : Address)
  /-- "voucher is Message Locked" -/
  | messageLocked
  /-- "voucher is Max Time Locked" -/
  | maxTimeLocked
  /-- "voucher is Min Time Locked" -/
  | minTimeLocked
  /-- "voucher is Hash Locked" -/
  | hashLocked
  | invalidSignature
  /-- "paych merges not handled yet" -/
  | mergesNotHandled
  /-- "nonce too low" -/
  | nonceTooLow
  /-- "voucher amount is lower than amount for voucher with lower nonce" -/
  | amountTooLow
  /-- "dont currently support paych lane merges" -/
  | mergesNotSupported
  /-- "not enough funds in channel to cover voucher - shortfall: %d" -/
  | insufficientFunds (shortfall : Int)
  /-- "addVoucher: supplied token amount too low; minD=%s, D=%s; laneAmt=%s; v.Amt=%s" -/
  | deltaTooLow (minDelta delta redeemed amount : Int)
  /-- "failed to sign voucher: %w" -/
  | signFailed

/-- A stored voucher takes the place of a lane state, unless its nonce is lower. -/
def applyVoucher (laneStates : Table Nat LaneState) (v : SignedVoucher) :
    Except VoucherErr (Table Nat LaneState) :=
  if v.merges ≠ [] then .error .mergesNotHandled
  else if (laneStates.get? v.lane).any (v.nonce < ·.nonce) then .ok laneStates
  else .ok (laneStates.insert v.lane ⟨v.amount, v.nonce⟩)

def laneState (state : PaychState) (vouchers : List VoucherInfo) :
    Except VoucherErr (Table Nat LaneState) :=
  vouchers.foldlM (fun laneStates v => applyVoucher laneStates v.voucher) state.lanes

def totalRedeemedWithVoucher (laneStates : Table Nat LaneState) (sv : SignedVoucher) :
    Except VoucherErr Int :=
  if sv.merges ≠ [] then .error .mergesNotSupported
  else
    let total := (laneStates.values.map LaneState.redeemed).sum
    match laneStates.get? sv.lane with
    | some lane =>
        .ok (if sv.nonce > lane.nonce then total + (sv.amount - lane.redeemed) else total)
    | none => .ok (total + sv.amount)

/-! ## Checking and adding vouchers -/

/-- Nonces are `uint64`. -/
def nextNonceForLane (ci : ChannelInfo) (lane : Nat) : Nat :=
  ((ci.vouchers.filter (·.voucher.lane = lane)).foldl
    (fun maxnonce v => max maxnonce v.voucher.nonce) 0 + 1) % 2 ^ 64

def checkUnlocked (ch : Address) (sv : SignedVoucher) : Except VoucherErr Unit :=
  if sv.channelAddr ≠ ch then .error (.channelAddrMismatch sv.channelAddr ch)
  else if sv.extra ≠ none then .error .messageLocked
  else if sv.timeLockMax ≠ 0 then .error .maxTimeLocked
  else if sv.timeLockMin ≠ 0 then .error .minTimeLocked
  else if sv.secretHash ≠ [] then .error .hashLocked
  else .ok ()

section

variable (env : VoucherEnv) (state : PaychState)

def checkSignature (sv : SignedVoucher) : Except VoucherErr Unit :=
  if env.verify sv.signature state.fromKey { sv with signature := none } then .ok ()
  else .error .invalidSignature

def checkLane (laneStates : Table Nat LaneState) (sv : SignedVoucher) : Except VoucherErr Unit :=
  match laneStates.get? sv.lane with
  | none => .ok ()
  | some ls =>
      if sv.nonce ≤ ls.nonce then .error .nonceTooLow
      else if sv.amount ≤ ls.redeemed then .error .amountTooLow
      else .ok ()

def checkBalance (totalRedeemed : Int) : Except VoucherErr Unit :=
  if (state.balance : Int) < totalRedeemed then
    .error (.insufficientFunds (totalRedeemed - state.balance))
  else .ok ()

def checkMerges (sv : SignedVoucher) : Except VoucherErr Unit :=
  if sv.merges ≠ [] then .error .mergesNotSupported else .ok ()

def checkVoucherValidUnlocked (ci : ChannelInfo) (ch : Address) (sv : SignedVoucher) :
    Except VoucherErr (Table Nat LaneState) :=
  do
  checkUnlocked ch sv
  checkSignature env state sv
  let laneStates ← laneState state ci.vouchers
  checkLane laneStates sv
  let totalRedeemed ← totalRedeemedWithVoucher laneStates sv
  checkBalance state totalRedeemed
  checkMerges sv
  return laneStates

/-- The voucher goes to the end of the list, and the next lane is one behind its own, a
`uint64`. -/
def storeVoucher (ci : ChannelInfo) (sv : SignedVoucher) : ChannelInfo :=
  { ci with
    vouchers := ci.vouchers ++ [⟨sv, false⟩]
    nextLane := if ci.nextLane ≤ sv.lane then (sv.lane + 1) % 2 ^ 64 else ci.nextLane }

def checkDelta (minDelta delta redeemed amount : Int) : Except VoucherErr Unit :=
  if minDelta > delta then .error (.deltaTooLow minDelta delta redeemed amount) else .ok ()

/-- What was redeemed on a lane, nothing on one that there is not. -/
def redeemedOn (laneStates : Table Nat LaneState) (lane : Nat) : Int :=
  ((laneStates.get? lane).map LaneState.redeemed).getD 0

/-- The delta, and the channel with the voucher. A voucher that the channel has is left
out, with a delta of zero. -/
def addVoucherUnlocked (ci : ChannelInfo) (ch : Address) (sv : SignedVoucher) (minDelta : Int) :
    Except VoucherErr (Int × ChannelInfo) :=
  if ∃ v ∈ ci.vouchers, sv = v.voucher then .ok (0, ci)
  else do
    let laneStates ← checkVoucherValidUnlocked env state ci ch sv
    let redeemed := redeemedOn laneStates sv.lane
    checkDelta minDelta (sv.amount - redeemed) redeemed sv.amount
    return (sv.amount - redeemed, storeVoucher ci sv)

/-- The voucher that `createVoucher` signs and adds. -/
def voucherToCreate (ci : ChannelInfo) (ch : Address) (voucher : SignedVoucher) :
    Except VoucherErr SignedVoucher :=
  let sv := { voucher with
    channelAddr := ch
    nonce := nextNonceForLane ci voucher.lane
    signature := none }
  match env.walletSign ci.control sv with
  | none => .error .signFailed
  | some sig => .ok { sv with signature := some sig }

structure VoucherCreateResult where
  voucher : Option SignedVoucher
  shortfall : Int

/-- The result with the delta that is dropped, and the channel. A shortfall is no error. -/
def createVoucher (ci : ChannelInfo) (ch : Address) (voucher : SignedVoucher) :
    Except VoucherErr (VoucherCreateResult × Int × ChannelInfo) :=
  match voucherToCreate env ci ch voucher with
  | .error e => .error e
  | .ok sv =>
      match addVoucherUnlocked env state ci ch sv 0 with
      | .ok (delta, ci) => .ok (⟨some sv, 0⟩, delta, ci)
      | .error (.insufficientFunds shortfall) => .ok (⟨none, shortfall⟩, 0, ci)
      | .error e => .error e

end

/-! ## Runs -/

inductive VoucherCall
  | create (voucher : SignedVoucher)
  | add (sv : SignedVoucher) (minDelta : Int)

/-- A channel, and the deltas so far with their lanes. -/
structure VoucherHistory where
  ci : ChannelInfo
  deltas : List (Nat × Int)

/-- One call. An error leaves the channel as it is. -/
def voucherStep (env : VoucherEnv) (state : PaychState) (ch : Address) (h : VoucherHistory) :
    VoucherCall → VoucherHistory
  | .create voucher =>
      match createVoucher env state h.ci ch voucher with
      | .error _ => h
      | .ok (_, delta, ci) => ⟨ci, h.deltas ++ [(voucher.lane, delta)]⟩
  | .add sv minDelta =>
      match addVoucherUnlocked env state h.ci ch sv minDelta with
      | .error _ => h
      | .ok (delta, ci) => ⟨ci, h.deltas ++ [(sv.lane, delta)]⟩

/-- Calls on a channel without vouchers. -/
def voucherRun (env : VoucherEnv) (state : PaychState) (ch : Address) (ci : ChannelInfo)
    (calls : List VoucherCall) : VoucherHistory :=
  calls.foldl (voucherStep env state ch) ⟨{ ci with vouchers := [] }, []⟩

/-! ## The lanes of a list of vouchers -/

/-- The last voucher on a lane, or the state of the lane on chain. -/
def latestState (state : PaychState) (vouchers : List VoucherInfo) (lane : Nat) :
    Option LaneState :=
  match (vouchers.filter (·.voucher.lane = lane)).getLast? with
  | some v => some ⟨v.voucher.amount, v.voucher.nonce⟩
  | none => state.lanes.get? lane

/-- The latest amount on a lane. -/
def latestAmount (state : PaychState) (vouchers : List VoucherInfo) (lane : Nat) : Int :=
  ((latestState state vouchers lane).map LaneState.redeemed).getD 0

/-- The lanes with vouchers. -/
def voucherLanes (vouchers : List VoucherInfo) : Finset Nat :=
  (vouchers.map (·.voucher.lane)).toFinset

/-- The deltas on a lane, added up. -/
def deltaSum (deltas : List (Nat × Int)) (lane : Nat) : Int :=
  ((deltas.filter (·.1 = lane)).map Prod.snd).sum

/-- A voucher and a later one: on one lane, the nonce and the amount of the later one are
higher. -/
def Supersedes (v w : VoucherInfo) : Prop :=
  v.voucher.lane = w.voucher.lane →
    v.voucher.nonce < w.voucher.nonce ∧ v.voucher.amount < w.voucher.amount

namespace VoucherLemmas

open Table LaneState

variable {env : VoucherEnv} {state : PaychState} {ch : Address} {ci ci' : ChannelInfo}
  {sv : SignedVoucher} {vouchers : List VoucherInfo} {laneStates : Table Nat LaneState}

theorem latestState_snoc (v : VoucherInfo) (lane : Nat) :
    latestState state (vouchers ++ [v]) lane =
      if lane = v.voucher.lane then some ⟨v.voucher.amount, v.voucher.nonce⟩
      else latestState state vouchers lane := by
  unfold latestState
  by_cases heq : lane = v.voucher.lane
  · simp [heq]
  · simp [heq, Ne.symm heq]

theorem latestAmount_snoc (v : VoucherInfo) (lane : Nat) :
    latestAmount state (vouchers ++ [v]) lane =
      if lane = v.voucher.lane then v.voucher.amount else latestAmount state vouchers lane := by
  unfold latestAmount
  rw [latestState_snoc]
  split <;> rfl

/-- Without vouchers on a lane, it is as on chain. -/
theorem latestState_of_notMem {lane : Nat} (h : lane ∉ voucherLanes vouchers) :
    latestState state vouchers lane = state.lanes.get? lane := by
  have hnil : vouchers.filter (·.voucher.lane = lane) = [] := by
    rw [filter_eq_nil_iff]
    intro v hv heq
    exact h (mem_toFinset.mpr (mem_map.mpr ⟨v, hv, of_decide_eq_true heq⟩))
  unfold latestState
  rw [hnil]
  rfl

theorem deltaSum_snoc (deltas : List (Nat × Int)) (lane' : Nat) (delta : Int) (lane : Nat) :
    deltaSum (deltas ++ [(lane', delta)]) lane =
      deltaSum deltas lane + if lane = lane' then delta else 0 := by
  unfold deltaSum
  split
  · next heq => simp [filter_append, heq]
  · next hne => simp [filter_append, Ne.symm hne]

/-! ### What the checks say -/

theorem checkLane_ok (h : checkLane laneStates sv = .ok ()) :
    ∀ ls, laneStates.get? sv.lane = some ls → ls.nonce < sv.nonce ∧ ls.redeemed < sv.amount := by
  intro ls hls
  unfold checkLane at h
  rw [hls] at h
  dsimp only at h
  split at h
  · cases h
  next hnonce =>
  split at h
  · cases h
  · next hamount => exact ⟨Nat.lt_of_not_le hnonce, Int.lt_of_not_ge hamount⟩

/-- With a voucher that supersedes the state of its lane, the total changes by the
difference. -/
theorem totalRedeemedWithVoucher_eq {total : Int}
    (hlane : ∀ ls, laneStates.get? sv.lane = some ls → ls.nonce < sv.nonce)
    (h : totalRedeemedWithVoucher laneStates sv = .ok total) :
    sv.merges = [] ∧ total = (laneStates.values.map LaneState.redeemed).sum +
      (sv.amount - redeemedOn laneStates sv.lane) := by
  unfold totalRedeemedWithVoucher at h
  split at h
  · cases h
  next hmerges =>
  refine ⟨not_not.mp hmerges, ?_⟩
  dsimp only at h
  unfold redeemedOn
  split at h
  · next ls hls =>
    rw [if_pos (hlane ls hls)] at h
    rw [hls]
    exact (Except.ok.inj h).symm
  · next hnone =>
    rw [hnone]
    rw [Option.map_none, Option.getD_none, sub_zero]
    exact (Except.ok.inj h).symm

variable (state laneStates) in
/-- What a voucher meets that passes all checks. -/
structure Checked (sv : SignedVoucher) :
    Prop where
  merges : sv.merges = []
  above : ∀ ls, laneStates.get? sv.lane = some ls → ls.nonce < sv.nonce ∧ ls.redeemed < sv.amount
  covered : (laneStates.values.map LaneState.redeemed).sum +
    (sv.amount - redeemedOn laneStates sv.lane) ≤ state.balance

theorem checkVoucherValidUnlocked_ok
    (h : checkVoucherValidUnlocked env state ci ch sv = .ok laneStates) :
    laneState state ci.vouchers = .ok laneStates ∧ Checked state laneStates sv := by
  obtain ⟨_, _, h⟩ := ok_of_bind h
  obtain ⟨_, _, h⟩ := ok_of_bind h
  obtain ⟨laneStates', hlanes, h⟩ := ok_of_bind h
  obtain ⟨_, hlane, h⟩ := ok_of_bind h
  obtain ⟨total, htotal, h⟩ := ok_of_bind h
  obtain ⟨_, hbalance, h⟩ := ok_of_bind h
  obtain ⟨_, _, h⟩ := ok_of_bind h
  cases h
  have habove := checkLane_ok hlane
  obtain ⟨hmerges, rfl⟩ := totalRedeemedWithVoucher_eq (fun ls hls => (habove ls hls).1) htotal
  refine ⟨hlanes, hmerges, habove, ?_⟩
  unfold checkBalance at hbalance
  split at hbalance
  · cases hbalance
  · next hle => exact not_lt.mp hle

/-- A voucher that is added is one the channel has, or is checked and stored. -/
theorem addVoucherUnlocked_ok {minDelta delta : Int}
    (h : addVoucherUnlocked env state ci ch sv minDelta = .ok (delta, ci')) :
    (delta = 0 ∧ ci' = ci) ∨ ∃ laneStates, laneState state ci.vouchers = .ok laneStates ∧
      Checked state laneStates sv ∧ delta = sv.amount - redeemedOn laneStates sv.lane ∧
      ci' = storeVoucher ci sv := by
  unfold addVoucherUnlocked at h
  split at h
  · cases h
    exact .inl ⟨rfl, rfl⟩
  · obtain ⟨laneStates, hcheck, h⟩ := ok_of_bind h
    obtain ⟨_, _, h⟩ := ok_of_bind h
    cases h
    obtain ⟨hlanes, hchecked⟩ := checkVoucherValidUnlocked_ok hcheck
    exact .inr ⟨laneStates, hlanes, hchecked, rfl, rfl⟩

/-- `createVoucher` adds a voucher on the lane, or leaves the channel as it is. -/
theorem createVoucher_ok {voucher : SignedVoucher} {result : VoucherCreateResult} {delta : Int}
    (h : createVoucher env state ci ch voucher = .ok (result, delta, ci')) :
    ∃ sv : SignedVoucher, sv.lane = voucher.lane ∧
      ((∃ minDelta, addVoucherUnlocked env state ci ch sv minDelta = .ok (delta, ci')) ∨
        (delta = 0 ∧ ci' = ci)) := by
  unfold createVoucher at h
  split at h
  · cases h
  next sv hsv =>
  have hlane : sv.lane = voucher.lane := by
    unfold voucherToCreate at hsv
    dsimp only at hsv
    split at hsv
    · cases hsv
    · cases hsv
      rfl
  refine ⟨sv, hlane, ?_⟩
  split at h
  · next hok =>
    cases h
    exact .inl ⟨0, hok⟩
  · cases h
    exact .inr ⟨rfl, rfl⟩
  · cases h

/-- A voucher that passed the checks is the state of its lane. -/
theorem laneState_snoc (hlanes : laneState state vouchers = .ok laneStates)
    (hchecked : Checked state laneStates sv) (submitted : Bool) :
    laneState state (vouchers ++ [⟨sv, submitted⟩]) =
      .ok (laneStates.insert sv.lane ⟨sv.amount, sv.nonce⟩) := by
  have happly : applyVoucher laneStates sv =
      .ok (laneStates.insert sv.lane ⟨sv.amount, sv.nonce⟩) := by
    unfold applyVoucher
    rw [if_neg (not_not.mpr hchecked.merges), if_neg]
    intro hany
    obtain ⟨ls, hls, hlt⟩ := (Option.any_eq_true _ _).mp hany
    exact Nat.lt_asymm (of_decide_eq_true hlt) (hchecked.above ls hls).1
  unfold laneState at hlanes ⊢
  rw [foldlM_append, hlanes]
  show (applyVoucher laneStates sv >>= pure) = _
  rw [happly]
  rfl

/-! ### The invariant -/

/-- The lane states that the code computes are the latest ones, vouchers on a lane stay
below its state, later vouchers supersede earlier ones, and the deltas are what the lanes
have gained. -/
structure VoucherInv (state : PaychState) (h : VoucherHistory) : Prop where
  lanes : ∃ laneStates, laneState state h.ci.vouchers = .ok laneStates ∧
    (∀ lane, laneStates.get? lane = latestState state h.ci.vouchers lane) ∧
    (h.ci.vouchers ≠ [] → (laneStates.values.map LaneState.redeemed).sum ≤ state.balance)
  below : ∀ v ∈ h.ci.vouchers, ∃ ls, latestState state h.ci.vouchers v.voucher.lane = some ls ∧
    v.voucher.nonce ≤ ls.nonce ∧ v.voucher.amount ≤ ls.redeemed
  ordered : h.ci.vouchers.Pairwise Supersedes
  deltas : ∀ lane, deltaSum h.deltas lane =
    latestAmount state h.ci.vouchers lane - redeemedOn state.lanes lane

theorem voucherInv_start :
    VoucherInv state ⟨{ ci with vouchers := [] }, []⟩ where
  lanes := ⟨state.lanes, rfl, fun _ => rfl, fun h => absurd rfl h⟩
  below := forall_mem_nil _
  ordered := .nil
  deltas lane := (sub_self (redeemedOn state.lanes lane)).symm

variable {h : VoucherHistory}

theorem VoucherInv.zero (hinv : VoucherInv state h) (lane : Nat) :
    VoucherInv state ⟨h.ci, h.deltas ++ [(lane, 0)]⟩ :=
  { hinv with
    deltas lane' := by rw [deltaSum_snoc, ite_self, add_zero]; exact hinv.deltas lane' }

/-- The total with the new voucher, as a sum over the lanes. -/
theorem sum_insert_lane :
    ((laneStates.insert sv.lane ⟨sv.amount, sv.nonce⟩).values.map LaneState.redeemed).sum =
      (laneStates.values.map LaneState.redeemed).sum +
        (sv.amount - redeemedOn laneStates sv.lane) := by
  show sv.amount + ((laneStates.erase sv.lane).values.map redeemed).sum = _
  unfold redeemedOn
  cases hget : laneStates.get? sv.lane with
  | none =>
    rw [erase_of_get?_none hget, Option.map_none, Option.getD_none, sub_zero, add_comm]
  | some ls =>
    rw [sum_erase redeemed hget, Option.map_some, Option.getD_some]
    omega

theorem VoucherInv.stored (hinv : VoucherInv state h)
    (hlanes : laneState state h.ci.vouchers = .ok laneStates)
    (hchecked : Checked state laneStates sv) :
    VoucherInv state ⟨storeVoucher h.ci sv,
      h.deltas ++ [(sv.lane, sv.amount - redeemedOn laneStates sv.lane)]⟩ := by
  obtain ⟨laneStates', hlanes', hget, -⟩ := hinv.lanes
  obtain rfl : laneStates = laneStates' := Except.ok.inj (hlanes.symm.trans hlanes')
  have hlatest : ∀ lane, latestState state (storeVoucher h.ci sv).vouchers lane =
      if lane = sv.lane then some ⟨sv.amount, sv.nonce⟩
      else latestState state h.ci.vouchers lane := latestState_snoc ⟨sv, false⟩
  have hbelow : ∀ v ∈ h.ci.vouchers, Supersedes v ⟨sv, false⟩ := by
    intro v hv heq
    obtain ⟨ls, hls, hnonce, hamount⟩ := hinv.below v hv
    obtain ⟨hn, ha⟩ := hchecked.above ls (by rw [hget, ← hls]; exact congrArg _ heq.symm)
    exact ⟨hnonce.trans_lt hn, hamount.trans_lt ha⟩
  refine ⟨⟨_, laneState_snoc hlanes hchecked false, ?_, fun _ => ?_⟩, ?_, ?_, ?_⟩
  · intro lane
    rw [get?_insert, hlatest, hget]
  · rw [sum_insert_lane]
    exact hchecked.covered
  · intro v hv
    rw [hlatest]
    split
    · next heq =>
      refine ⟨_, rfl, ?_⟩
      rcases mem_append.mp hv with hv | hv
      · exact ⟨(hbelow v hv heq).1.le, (hbelow v hv heq).2.le⟩
      · rw [mem_singleton.mp hv]
        exact ⟨le_refl _, le_refl _⟩
    · next hne =>
      rcases mem_append.mp hv with hv | hv
      · exact hinv.below v hv
      · exact absurd (by rw [mem_singleton.mp hv]) hne
  · exact pairwise_append.mpr ⟨hinv.ordered, pairwise_singleton _ _,
      fun v hv w hw => by rw [mem_singleton.mp hw]; exact hbelow v hv⟩
  · intro lane
    have hamount : latestAmount state (storeVoucher h.ci sv).vouchers lane =
        if lane = sv.lane then sv.amount else latestAmount state h.ci.vouchers lane :=
      latestAmount_snoc ⟨sv, false⟩ lane
    rw [deltaSum_snoc, hinv.deltas, hamount]
    split
    · next heq =>
      have hred : redeemedOn laneStates sv.lane = latestAmount state h.ci.vouchers lane := by
        unfold redeemedOn latestAmount
        rw [hget, heq]
      omega
    · exact add_zero _

theorem VoucherInv.step (hinv : VoucherInv state h) (call : VoucherCall) :
    VoucherInv state (voucherStep env state ch h call) := by
  have hadd : ∀ {sv : SignedVoucher} {minDelta delta : Int} {ci : ChannelInfo},
      addVoucherUnlocked env state h.ci ch sv minDelta = .ok (delta, ci) →
      VoucherInv state ⟨ci, h.deltas ++ [(sv.lane, delta)]⟩ := by
    intro sv minDelta delta ci hok
    obtain ⟨rfl, rfl⟩ | ⟨laneStates, hlanes, hchecked, rfl, rfl⟩ := addVoucherUnlocked_ok hok
    · exact hinv.zero sv.lane
    · exact hinv.stored hlanes hchecked
  cases call with
  | create voucher =>
    simp only [voucherStep]
    split
    · exact hinv
    · next result delta ci hcreate =>
      obtain ⟨sv, hlane, ⟨minDelta, hok⟩ | ⟨rfl, rfl⟩⟩ := createVoucher_ok hcreate
      · rw [← hlane]
        exact hadd hok
      · exact hinv.zero voucher.lane
  | add sv minDelta =>
    simp only [voucherStep]
    split
    · exact hinv
    · next delta ci hok => exact hadd hok

/-! ### The lanes together -/

theorem VoucherInv.keys (hinv : VoucherInv state h)
    (hget : ∀ lane, laneStates.get? lane = latestState state h.ci.vouchers lane) :
    laneStates.keys.toFinset = voucherLanes h.ci.vouchers ∪ state.lanes.keys.toFinset := by
  ext lane
  rw [Finset.mem_union, mem_toFinset, mem_toFinset]
  rw [mem_keys_iff, mem_keys_iff, hget]
  by_cases hmem : lane ∈ voucherLanes h.ci.vouchers
  · obtain ⟨v, hv, rfl⟩ := mem_map.mp (mem_toFinset.mp hmem)
    obtain ⟨ls, hls, -⟩ := hinv.below v hv
    exact ⟨fun _ => .inl hmem, fun _ => ⟨ls, hls⟩⟩
  · rw [latestState_of_notMem hmem]
    exact ⟨.inr, fun h => h.resolve_left hmem⟩

/-- With a voucher, all lanes together are covered by the balance. -/
theorem VoucherInv.sum_le (hinv : VoucherInv state h) (hne : h.ci.vouchers ≠ []) :
    ∑ lane ∈ voucherLanes h.ci.vouchers ∪ state.lanes.keys.toFinset,
      latestAmount state h.ci.vouchers lane ≤ state.balance := by
  obtain ⟨laneStates, -, hget, hsum⟩ := hinv.lanes
  calc ∑ lane ∈ voucherLanes h.ci.vouchers ∪ state.lanes.keys.toFinset,
        latestAmount state h.ci.vouchers lane
      = ∑ lane ∈ laneStates.keys.toFinset, ((laneStates.get? lane).map redeemed).getD 0 :=
        Finset.sum_congr (hinv.keys hget).symm fun lane _ => by rw [hget]; rfl
    _ = (laneStates.values.map redeemed).sum := (sum_values _).symm
    _ ≤ state.balance := hsum hne

/-- A lane without vouchers is as on chain, and not negative. -/
theorem latestAmount_nonneg {lane : Nat} (h : lane ∉ voucherLanes vouchers) :
    0 ≤ latestAmount state vouchers lane := by
  unfold latestAmount
  rw [latestState_of_notMem h]
  cases hls : state.lanes.get? lane with
  | none => exact le_refl 0
  | some ls => exact state.redeemed_nonneg lane ls hls

theorem VoucherInv.sum_voucherLanes_le (hinv : VoucherInv state h) :
    ∑ lane ∈ voucherLanes h.ci.vouchers, latestAmount state h.ci.vouchers lane ≤ state.balance := by
  by_cases hne : h.ci.vouchers = []
  · rw [hne]
    exact Int.natCast_nonneg state.balance
  · exact (Finset.sum_le_sum_of_subset_of_nonneg Finset.subset_union_left
      fun lane _ hmem => latestAmount_nonneg hmem).trans (hinv.sum_le hne)

end VoucherLemmas

open VoucherLemmas in
/-- After any calls of `createVoucher` and `addVoucher` on a channel: of two vouchers on a
lane the later one has the higher nonce and the higher amount; the latest amounts are
covered by the balance, as soon as there is a voucher together with all lanes on chain; and
the deltas on each lane add up to its latest amount less what was redeemed on chain. -/
theorem vouchers_ordered (env : VoucherEnv) (state : PaychState) (ch : Address)
    (ci : ChannelInfo) (calls : List VoucherCall) :
    let h := voucherRun env state ch ci calls
    h.ci.vouchers.Pairwise Supersedes ∧
      ∑ lane ∈ voucherLanes h.ci.vouchers, latestAmount state h.ci.vouchers lane ≤ state.balance ∧
      (h.ci.vouchers ≠ [] →
        ∑ lane ∈ voucherLanes h.ci.vouchers ∪ state.lanes.keys.toFinset,
          latestAmount state h.ci.vouchers lane ≤ state.balance) ∧
      ∀ lane, deltaSum h.deltas lane =
        latestAmount state h.ci.vouchers lane - redeemedOn state.lanes lane := by
  have hinv : VoucherInv state (voucherRun env state ch ci calls) :=
    foldlRecOn calls _ voucherInv_start fun _ hinv call _ => hinv.step call
  exact ⟨hinv.ordered, hinv.sum_voucherLanes_le, hinv.sum_le, hinv.deltas⟩

end OpenDsn.Paych
