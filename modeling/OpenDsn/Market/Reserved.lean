import Mathlib.Algebra.Order.BigOperators.Group.List
import OpenDsn.Market.FundManager

/-!
# The reserved amount

What the fund manager has reserved for an address against the results of requests, over any
number of addresses and wallets and any order of events.

* `splitReservations_balanced`: what a split adds to the reserved amount is what it takes in
  less the releases;
* `process_cases`: the parts of a step;
* `reserved_accounted`: at most one message is on its way for an address, and the reserved
  amount is that of the completed reservations less that of the completed releases.
-/

namespace OpenDsn.Market

open Lib Mpool List Option

/-- The amounts of the requests of a kind that were completed without an error. -/
def completedAmt (kind : RequestKind) (completed : List Completion) : Int :=
  ((completed.filter fun c => c.kind = kind ∧ c.err = none).map (·.req.amt)).sum

/-- The releases in the queue do not exceed what is reserved, together with the reservations
that complete in the same step. -/
def ReleasesCovered (a : FundedAddress) : Prop :=
  let split := splitReservations a.reservations a.releases
  amounts a.releases ≤ a.amtReserved + (amounts split.toCancel + amounts split.toAdd)

/-- A step that looks at the queues finds the releases covered. -/
def StepCovered (fm : FundManager) (event : Address × AddressEvent) : Prop :=
  match event.2 with
  | .process _ =>
      (getFundedAddress fm event.1).msgCid = none → ReleasesCovered (getFundedAddress fm event.1)
  | _ => True

instance (a : FundedAddress) : Decidable (ReleasesCovered a) := inferInstanceAs (Decidable (_ ≤ _))

instance (fm : FundManager) : ∀ event, Decidable (StepCovered fm event)
  | (_, .process _) => inferInstanceAs (Decidable (_ → _))
  | (_, .reserve ..) | (_, .release ..) | (_, .withdraw ..) => isTrue trivial
  | (_, .msgComplete _) | (_, .waitFailed _) => isTrue trivial

variable {env : ProcessEnv} {a a' : FundedAddress}

namespace ReservedLemmas

/-! ## Completed amounts -/

theorem completeAll_eq {completed calls completed' : List Completion}
    (h : completeAll completed calls = some completed') : completed' = completed ++ calls := by
  induction calls generalizing completed with
  | nil =>
    cases h
    exact (append_nil _).symm
  | cons c calls ih =>
    unfold completeAll at h
    split at h
    · cases h
    · rw [ih h, append_assoc]
      rfl

theorem completedAmt_append (kind : RequestKind) (l l' : List Completion) :
    completedAmt kind (l ++ l') = completedAmt kind l + completedAmt kind l' := by
  unfold completedAmt
  rw [filter_append, map_append, sum_append]

theorem completedAmt_same (kind : RequestKind) (reqs : List FundRequest) (cid : Option MsgCid) :
    completedAmt kind (completions kind reqs cid none) = amounts reqs := by
  unfold completedAmt completions
  rw [filter_eq_self.mpr, List.map_map]
  · rfl
  · simp

theorem completedAmt_of_forall {kind : RequestKind} {calls : List Completion}
    (h : ∀ c ∈ calls, c.kind ≠ kind ∨ c.err ≠ none) : completedAmt kind calls = 0 := by
  unfold completedAmt
  rw [filter_eq_nil_iff.mpr]
  · rfl
  · intro c hc
    simpa [or_iff_not_imp_left] using h c hc

theorem completedAmt_other {kind kind' : RequestKind} (hne : kind' ≠ kind)
    (reqs : List FundRequest) (cid : Option MsgCid) (err : Option FundErr) :
    completedAmt kind (completions kind' reqs cid err) = 0 :=
  completedAmt_of_forall fun c hc => by
    obtain ⟨req, -, rfl⟩ := mem_map.mp hc
    exact .inl hne

theorem completedAmt_error (kind kind' : RequestKind) (reqs : List FundRequest)
    (cid : Option MsgCid) (e : FundErr) :
    completedAmt kind (completions kind' reqs cid (some e)) = 0 :=
  completedAmt_of_forall fun c hc => by
    obtain ⟨req, -, rfl⟩ := mem_map.mp hc
    exact .inr (some_ne_none e)

/-! ## Splits -/

theorem amounts_append (reqs reqs' : List FundRequest) :
    amounts (reqs ++ reqs') = amounts reqs + amounts reqs' := by
  unfold amounts
  rw [map_append, sum_append]

theorem amounts_snoc (reqs : List FundRequest) (req : FundRequest) :
    amounts (reqs ++ [req]) = amounts reqs + req.amt := by
  simp [amounts]

/-- The releases of a split are used up by reservations, or count against what is added. -/
def Split.Balanced (released : Int) (s : Split) : Prop :=
  amounts s.toCancel + amounts s.toAdd - released = s.reservedDelta

theorem balanced_next {released : Int} {s : Split} (h : Split.Balanced released s)
    (req : FundRequest) : Split.Balanced released (s.next req) := by
  unfold Split.Balanced Split.reservedDelta at h
  unfold Split.next
  split
  · show amounts (s.toCancel ++ [req]) + amounts s.toAdd - released =
      s.toAddAmt - (s.releaseAmt - req.amt)
    rw [amounts_snoc]
    omega
  · dsimp only
    split
    · show amounts s.toCancel + amounts (s.toAdd ++ [req]) - released =
        s.toAddAmt + (req.amt - s.releaseAmt) - 0
      rw [amounts_snoc]
      omega
    · exact h

/-- What a split adds to the reserved amount is what it takes in, less the releases. -/
theorem splitReservations_balanced (reservations releases : List FundRequest) :
    let split := splitReservations reservations releases
    amounts split.toCancel + amounts split.toAdd - amounts releases = split.reservedDelta := by
  refine foldlRecOn (motive := Split.Balanced (amounts releases)) reservations _ ?_
    fun s hs req _ => balanced_next hs req
  show 0 + 0 - amounts releases = 0 - amounts releases
  omega

/-! ## Steps -/

/-- The reserved amount is that of the completed reservations less that of the completed
releases. -/
def Accounted (a : FundedAddress) : Prop :=
  a.amtReserved = completedAmt .reservation a.completed - completedAmt .release a.completed

/-- What the calls of a successful step complete. -/
theorem reservationCalls_ok (pr : ProcessResult) :
    completedAmt .release (reservationCalls a (.ok pr)) = amounts a.releases ∧
      completedAmt .reservation (reservationCalls a (.ok pr)) =
        amounts pr.covered + if pr.msgCid = none then 0 else amounts pr.added := by
  have hrelease : RequestKind.release ≠ .reservation := by decide
  obtain ⟨covered, added, amtReserved, msgCid⟩ := pr
  cases msgCid with
  | none =>
    simp only [reservationCalls, completedAmt_append, append_nil, completedAmt_same,
      completedAmt_other hrelease, completedAmt_other hrelease.symm]
    exact ⟨add_zero _, (zero_add _).trans (add_zero _).symm⟩
  | some cid =>
    simp only [reservationCalls, completedAmt_append, completedAmt_same,
      completedAmt_other hrelease, completedAmt_other hrelease.symm]
    exact ⟨add_zero _, zero_add _⟩

theorem reservationCalls_error (kind : RequestKind) (e : FundErr) :
    completedAmt kind (reservationCalls a (.error e)) = 0 := by
  simp only [reservationCalls, completedAmt_append, completedAmt_error]
  rfl

/-- A successful step completes the reservations that the split takes in. -/
theorem processReservations_ok {pr : ProcessResult} (h : processReservations env a = .ok pr) :
    let split := splitReservations a.reservations a.releases
    pr.amtReserved = newReserved a split ∧
      completedAmt .reservation (reservationCalls a (.ok pr)) =
        amounts split.toCancel + amounts split.toAdd := by
  rw [(reservationCalls_ok pr).2]
  unfold processReservations at h
  dsimp only at h
  split at h
  · cases h
  split at h
  · cases h
    exact ⟨rfl, (add_zero _).trans (amounts_append _ _)⟩
  · split at h <;> cases h
    exact ⟨rfl, rfl⟩

theorem stepReservations_accounted (h : Accounted a) (hcovered : ReleasesCovered a)
    (hstep : stepReservations env a = some a') : Accounted a' := by
  obtain ⟨completed, hcompleted, rfl⟩ := map_eq_some_iff.mp hstep
  obtain rfl := completeAll_eq hcompleted
  unfold Accounted at h ⊢
  rw [completedAmt_append, completedAmt_append]
  cases hresult : processReservations env a with
  | error e =>
    rw [reservationCalls_error, reservationCalls_error, add_zero, add_zero]
    exact h
  | ok pr =>
    obtain ⟨hreserved, hin⟩ := processReservations_ok hresult
    have hbalanced := splitReservations_balanced a.reservations a.releases
    have hcov : amounts a.releases ≤ a.amtReserved + (_ + _) := hcovered
    rw [hin, (reservationCalls_ok pr).1]
    dsimp only
    rw [hreserved]
    unfold newReserved
    dsimp only at hbalanced ⊢
    split <;> omega

theorem withdrawing_kind {avail reserved : Int} {s : Withdrawing}
    (h : ∀ c ∈ s.calls, c.kind = .withdrawal) (req : FundRequest) :
    ∀ c ∈ (s.next avail reserved req).calls, c.kind = .withdrawal := by
  have hsnoc : ∀ err, ∀ c ∈ s.calls ++ [⟨.withdrawal, req, none, err⟩], c.kind = .withdrawal :=
    fun err => forall_mem_snoc h rfl
  unfold Withdrawing.next
  dsimp only
  split
  · exact hsnoc none
  · split
    · exact hsnoc _
    · split <;> exact h

theorem processWithdrawals_kind (env : ProcessEnv) (a : FundedAddress) :
    ∀ c ∈ (processWithdrawals env a).2, c.kind = .withdrawal := by
  have hall : ∀ reqs msgCid err, ∀ c ∈ completions .withdrawal reqs msgCid err,
      c.kind = .withdrawal := fun _ _ _ => forall_mem_map.mpr fun _ _ => rfl
  unfold processWithdrawals
  split
  · exact hall _ _ _
  · next avail _ =>
    have hcalls := foldlRecOn
      (motive := fun s : Withdrawing => ∀ c ∈ s.calls, c.kind = .withdrawal)
      a.withdrawals (Withdrawing.next avail a.amtReserved)
      (fun _ h => absurd h not_mem_nil : ∀ c ∈ (⟨0, 0, [], .undef, []⟩ : Withdrawing).calls, _)
      fun s hs req _ => withdrawing_kind hs req
    dsimp only
    split
    · exact forall_mem_append.mpr ⟨hcalls, hall _ _ _⟩
    · split <;> exact forall_mem_append.mpr ⟨hcalls, hall _ _ _⟩

theorem stepWithdrawals_accounted (h : Accounted a) (hstep : stepWithdrawals env a = some a') :
    Accounted a' := by
  have hkinds := processWithdrawals_kind env a
  unfold stepWithdrawals at hstep
  generalize processWithdrawals env a = w at hkinds hstep
  obtain ⟨completed, hcompleted, rfl⟩ := map_eq_some_iff.mp hstep
  obtain rfl := completeAll_eq hcompleted
  have hnone : ∀ kind ≠ RequestKind.withdrawal, completedAmt kind w.2 = 0 := fun kind hkind =>
    completedAmt_of_forall fun c hc => .inl fun heq => hkind (heq.symm.trans (hkinds c hc))
  unfold Accounted at h ⊢
  rw [completedAmt_append, completedAmt_append, hnone _ (by decide), hnone _ (by decide),
    add_zero, add_zero]
  split <;> exact h

/-- A step waits for its message, or serves the reservations, then the withdrawals if
no message was sent, and waits for the message that was sent. -/
theorem process_cases (h : process env a = some a') :
    (a.msgCid ≠ none ∧ a' = a) ∨
      (a.msgCid = none ∧ ∃ b c, (stepReservations env a = some b ∨ b = a) ∧
        (b.msgCid = none ∧ stepWithdrawals env b = some c ∨ c = b) ∧
        a' = startWaitForResults c) := by
  unfold process at h
  split at h
  · next hmsg =>
    cases h
    exact .inl ⟨hmsg, rfl⟩
  · next hmsg =>
    obtain ⟨b, hb, hrest⟩ := bind_eq_some_iff.mp h
    obtain ⟨c, hc, rfl⟩ := map_eq_some_iff.mp hrest
    refine .inr ⟨not_not.mp hmsg, b, c, ?_, ?_, rfl⟩
    · split at hb
      · exact .inl hb
      · exact .inr (some.inj hb).symm
    · split at hc
      · next hcond => exact .inl ⟨hcond.2.1, hc⟩
      · exact .inr (some.inj hc).symm

theorem process_accounted (h : Accounted a) (hcovered : a.msgCid = none → ReleasesCovered a)
    (hstep : process env a = some a') : Accounted a' := by
  obtain ⟨-, rfl⟩ | ⟨hmsg, b, c, hb, hc, rfl⟩ := process_cases hstep
  · exact h
  · have haccb : Accounted b := by
      obtain hb | rfl := hb
      · exact stepReservations_accounted h (hcovered hmsg) hb
      · exact h
    have haccc : Accounted c := by
      obtain ⟨-, hc⟩ | rfl := hc
      · exact stepWithdrawals_accounted haccb hc
      · exact haccb
    exact haccc

/-- On their way are the messages that nobody waits for anymore and the message of the
state, and `waits` are waited for. -/
structure OnWay (lost waits : List MsgCid) (a : FundedAddress) : Prop where
  inFlight : a.inFlight = lost ++ a.msgCid.toList
  waits : a.waits = waits

variable {lost : List MsgCid}

theorem OnWay.sent (h : OnWay lost [] a) (hmsg : a.msgCid = none) (msgCid : Option MsgCid) :
    OnWay lost [] (a.sent msgCid) where
  inFlight := by
    show a.inFlight ++ msgCid.toList = lost ++ msgCid.toList
    rw [h.inFlight, hmsg, toList_none, append_nil]
  waits := h.waits

theorem OnWay.stepReservations (h : OnWay lost [] a) (hmsg : a.msgCid = none)
    (hstep : stepReservations env a = some a') : OnWay lost [] a' := by
  obtain ⟨completed, -, rfl⟩ := map_eq_some_iff.mp hstep
  split
  · exact ⟨h.inFlight, h.waits⟩
  · exact ⟨(h.sent hmsg _).inFlight, h.waits⟩

theorem OnWay.stepWithdrawals (h : OnWay lost [] a) (hmsg : a.msgCid = none)
    (hstep : stepWithdrawals env a = some a') : OnWay lost [] a' := by
  obtain ⟨completed, -, rfl⟩ := map_eq_some_iff.mp hstep
  split
  · exact ⟨(h.sent hmsg _).inFlight, h.waits⟩
  · exact ⟨h.inFlight, h.waits⟩

theorem OnWay.process (h : OnWay lost a.msgCid.toList a) (hstep : process env a = some a') :
    OnWay lost a'.msgCid.toList a' := by
  obtain ⟨-, rfl⟩ | ⟨hmsg, b, c, hb, hc, rfl⟩ := process_cases hstep
  · exact h
  · rw [hmsg] at h
    have hwayb : OnWay lost [] b := by
      obtain hb | rfl := hb
      · exact h.stepReservations hmsg hb
      · exact h
    have hwayc : OnWay lost [] c := by
      obtain ⟨hmsgb, hc⟩ | rfl := hc
      · exact hwayb.stepWithdrawals hmsgb hc
      · exact hwayb
    exact ⟨hwayc.inFlight, congrArg (· ++ c.msgCid.toList) hwayc.waits⟩

/-- The message of the state is the only one on its way, and is waited for. -/
def SingleMsg (a : FundedAddress) : Prop := OnWay [] a.msgCid.toList a

/-- The message that is waited for is the one of the state. -/
theorem OnWay.waited (h : OnWay lost a.msgCid.toList a) {cid : MsgCid} (hcid : cid ∈ a.waits) :
    a.msgCid = some cid ∧ a.waits.erase cid = [] := by
  have hmsg : a.msgCid = some cid := mem_toList.mp (h.waits ▸ hcid)
  refine ⟨hmsg, ?_⟩
  rw [h.waits, hmsg]
  exact erase_cons_head cid []

/-! ## Events -/

theorem SingleMsg.addressStep {event : AddressEvent} (h : SingleMsg a)
    (hevent : ∀ cid, event ≠ .waitFailed cid) (hstep : addressStep a event = some a') :
    SingleMsg a' := by
  cases event with
  | reserve | release | withdraw =>
    cases hstep
    exact ⟨h.inFlight, h.waits⟩
  | process env => exact OnWay.process h hstep
  | msgComplete cid =>
    obtain ⟨hcid, hstep⟩ := ite_none_right_eq_some.mp hstep
    cases hstep
    obtain ⟨hmsg, hwaits⟩ := OnWay.waited h hcid
    refine ⟨?_, hwaits⟩
    rw [h.inFlight, hmsg]
    exact erase_cons_head cid []
  | waitFailed cid => exact absurd rfl (hevent cid)

/-- A property of the addresses that a step keeps at its address. -/
theorem fundManagerStep_forall {P : FundedAddress → Prop} {fm fm' : FundManager}
    {event : Address × AddressEvent} (h : ∀ addr, P (getFundedAddress fm addr))
    (hevent : ∀ a', addressStep (getFundedAddress fm event.1) event.2 = some a' → P a')
    (hstep : fundManagerStep fm event = some fm') : ∀ addr, P (getFundedAddress fm' addr) := by
  obtain ⟨a', ha', rfl⟩ := map_eq_some_iff.mp hstep
  intro addr
  unfold getFundedAddress
  rw [Table.get?_insert]
  split
  · exact hevent a' ha'
  · exact h addr

end ReservedLemmas

open ReservedLemmas in
/-- For every run of a manager, with any number of addresses and wallets, in every state and
for every address: at most one message is on its way, if no wait fails, and the reserved
amount is that of the reservations completed without an error less that of the releases
completed without an error, if every step finds the releases covered. -/
theorem reserved_accounted {events : List (Address × AddressEvent)} {fms : List FundManager}
    (hrun : trace fundManagerStep ∅ events = some fms) :
    ((∀ event ∈ events, ∀ cid, event.2 ≠ .waitFailed cid) →
      ∀ fm ∈ fms, ∀ addr, (getFundedAddress fm addr).inFlight.length ≤ 1) ∧
    (Guarded fundManagerStep StepCovered ∅ events →
      ∀ fm ∈ fms, ∀ addr, getReserved fm addr =
        completedAmt .reservation (getFundedAddress fm addr).completed -
          completedAmt .release (getFundedAddress fm addr).completed) := by
  constructor
  · intro hwait fm hfm addr
    have hstart : ∀ addr, SingleMsg (getFundedAddress ∅ addr) := fun _ => ⟨rfl, rfl⟩
    have hsingle := trace_forall_guarded
      (P := fun fm => ∀ addr, SingleMsg (getFundedAddress fm addr))
      (fun fm event fm' h hevent hstep => fundManagerStep_forall h
        (fun _ ha' => (h event.1).addressStep hevent ha') hstep)
      hstart hrun (guarded_of_forall (fun event hevent _ => hwait event hevent) ∅) fm hfm addr
    rw [hsingle.inFlight]
    exact length_toList_le
  · intro hcovered
    have hstart : ∀ addr, Accounted (getFundedAddress ∅ addr) := fun _ => rfl
    refine trace_forall_guarded (P := fun fm => ∀ addr, Accounted (getFundedAddress fm addr))
      (fun fm event fm' h hguard hstep => ?_) hstart hrun hcovered
    refine fundManagerStep_forall h (fun a' ha' => ?_) hstep
    obtain ⟨addr, event⟩ := event
    cases event with
    | reserve | release | withdraw =>
      cases ha'
      exact h addr
    | process env => exact process_accounted (h addr) hguard ha'
    | msgComplete cid | waitFailed cid =>
      obtain ⟨-, ha'⟩ := ite_none_right_eq_some.mp ha'
      cases ha'
      exact h addr

/-- Reservations of 5 and 3 from two wallets, and a release of 2. The first message adds 5,
the second one, for the other wallet, adds what is missing for 6. -/
def twoWallets : List (Address × AddressEvent) :=
  [.reserve (.id 1) 5, .reserve (.id 2) 3,
    .process ⟨some 0, some 0, fun _ _ => some 7, fun _ _ => none⟩, .release 2, .msgComplete 7,
    .process ⟨some 5, some 5, fun _ _ => some 8, fun _ _ => none⟩].map (.id 10, ·)

theorem reserved_accounted_wallets :
    ∃ fms, trace fundManagerStep ∅ twoWallets = some fms ∧
      (∃ fm ∈ fms, getReserved fm (.id 10) = 6 ∧ (getFundedAddress fm (.id 10)).inFlight = [8] ∧
        completedAmt .reservation (getFundedAddress fm (.id 10)).completed = 8) ∧
      (∀ fm ∈ fms, ∀ addr, (getFundedAddress fm addr).inFlight.length ≤ 1) ∧
      ∀ fm ∈ fms, ∀ addr, getReserved fm addr =
        completedAmt .reservation (getFundedAddress fm addr).completed -
          completedAmt .release (getFundedAddress fm addr).completed := by
  refine exists_trace_and (by decide) fun fms hrun => ?_
  have hwait : ∀ event ∈ twoWallets, ∀ cid, event.2 ≠ .waitFailed cid := by simp [twoWallets]
  have hcovered : Guarded fundManagerStep StepCovered ∅ twoWallets := by decide
  obtain ⟨hflight, hreserved⟩ := reserved_accounted hrun
  exact ⟨hflight hwait, hreserved hcovered⟩

end OpenDsn.Market
