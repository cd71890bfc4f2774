import OpenDsn.Market.Reserved

/-!
# Requests are completed once

A request of the fund manager has one channel for its result, which `Complete` closes. The
requests of an address are numbered, so each of them stands in the queues of its address or
among the completed ones, and a step moves requests from the one to the other.

* `processReservations_subperm`: reservations and releases are completed once;
* `stepWithdrawals_eq_none_iff`: withdrawals are completed twice exactly if the push of
  their message fails after the loop has completed some of them;
* `completed_once_iff`: over whole runs;
* `withdrawal_completed_twice`: two withdrawals, the second one of which exceeds the balance.
-/

namespace OpenDsn.Market

open Lib Mpool List Option

/-! ## Events with cancelled contexts -/

/-- `Amount` is zero once the context of the request is cancelled. -/
def FundRequest.cancel (id : Nat) (req : FundRequest) : FundRequest :=
  if req.id = id then { req with amt := 0 } else req

/-- A step reads the amount of a request once. So a cancellation during a step is one before
the step or one after it. -/
def cancelRequest (a : FundedAddress) (id : Nat) : FundedAddress :=
  { a with
    reservations := a.reservations.map (FundRequest.cancel id)
    releases := a.releases.map (FundRequest.cancel id)
    withdrawals := a.withdrawals.map (FundRequest.cancel id) }

inductive RequestEvent
  | address (event : AddressEvent)
  | cancel (id : Nat)

def requestStep (fm : FundManager) : Address × RequestEvent → Option FundManager
  | (addr, .address event) => fundManagerStep fm (addr, event)
  | (addr, .cancel id) => some (fm.insert addr (cancelRequest (getFundedAddress fm addr) id))

/-- A wait that ends is one that there is. -/
def WaitsThere (fm : FundManager) : Address × RequestEvent → Prop
  | (addr, .address (.msgComplete cid)) => cid ∈ (getFundedAddress fm addr).waits
  | (addr, .address (.waitFailed cid)) => cid ∈ (getFundedAddress fm addr).waits
  | _ => True

instance (fm : FundManager) : ∀ event, Decidable (WaitsThere fm event)
  | (_, .address (.msgComplete _)) => inferInstanceAs (Decidable (_ ∈ _))
  | (_, .address (.waitFailed _)) => inferInstanceAs (Decidable (_ ∈ _))
  | (_, .address (.reserve ..)) | (_, .address (.release ..)) => isTrue trivial
  | (_, .address (.withdraw ..)) | (_, .address (.process _)) => isTrue trivial
  | (_, .cancel _) => isTrue trivial

/-! ## Steps that complete a request again -/

/-- The withdrawals of one wallet that `net` covers together, in their order, and whether there are
others that are of amount zero or go over `net`. -/
def covered (net : Int) (reqs : List FundRequest) : List FundRequest × Bool :=
  reqs.foldl (fun (paid, others) req =>
    if req.amt = 0 ∨ net < amounts paid + req.amt then (paid, true)
    else if (paid.getLast?.map FundRequest.wallet).getD .undef ∈ [.undef, req.wallet] then
      (paid ++ [req], others)
    else (paid, others)) ([], false)

/-- A withdrawal is of amount zero or goes over the balance, and the push of a message for those
that are covered fails. -/
def Recompletes (env : ProcessEnv) (a : FundedAddress) : Prop :=
  ∃ avail ∈ env.withdrawAvail,
    let (paid, others) := covered (avail - a.amtReserved) a.withdrawals
    others = true ∧ amounts paid ≠ 0 ∧ env.withdrawFunds (firstWallet paid) (amounts paid) = none

/-- The address when the step gets to its withdrawals. -/
def reservationsServed (env : ProcessEnv) (a : FundedAddress) : Option FundedAddress :=
  if a.reservations ≠ [] ∨ a.releases ≠ [] then stepReservations env a else some a

/-- The loop over the withdrawals. -/
def withdrawing (a : FundedAddress) (avail : Int) : Withdrawing :=
  a.withdrawals.foldl (Withdrawing.next avail a.amtReserved) ⟨0, 0, [], .undef, []⟩

/-- The loop allows the withdrawals that are covered. -/
theorem withdrawing_covered (avail reserved : Int) (reqs : List FundRequest) :
    let w := reqs.foldl (Withdrawing.next avail reserved) ⟨0, 0, [], .undef, []⟩
    covered (avail - reserved) reqs = (w.allowed, !w.calls.isEmpty) ∧
      w.allowedAmt = amounts w.allowed ∧ w.withdrawalAmt = amounts w.allowed ∧
      w.batchWallet = (w.allowed.getLast?.map FundRequest.wallet).getD .undef := by
  induction reqs using reverseRecOn with
  | nil => simp [covered, amounts]
  | append_singleton reqs req ih =>
    rw [foldl_append, show covered (avail - reserved) (reqs ++ [req]) = _ from foldl_append]
    generalize reqs.foldl (Withdrawing.next avail reserved) ⟨0, 0, [], .undef, []⟩ = w at ih ⊢
    obtain ⟨hcovered, hamt, hsum, hwallet⟩ := ih
    simp only [foldl_cons, foldl_nil]
    rw [← covered, hcovered]
    dsimp only
    rw [← hwallet]
    unfold Withdrawing.next batchWith
    rw [hsum]
    by_cases hzero : req.amt = 0
    · simp [hzero, hamt, hwallet]
    by_cases hover : avail - reserved < amounts w.allowed + req.amt
    · simp [hzero, hover, hamt, hwallet]
    by_cases hw : w.batchWallet = .undef ∨ w.batchWallet = req.wallet
    · rcases hw with hw | hw <;>
      simp [hzero, hover, hw, hamt, ReservedLemmas.amounts_snoc]
    · obtain ⟨hundef, hne⟩ := not_or.mp hw
      simp [hzero, hover, hundef, hne, Ne.symm hne, hamt, ← hwallet]

theorem recompletes_iff {env : ProcessEnv} {a : FundedAddress} {avail : Int}
    (havail : env.withdrawAvail = some avail) :
    Recompletes env a ↔ let w := withdrawing a avail
      w.calls ≠ [] ∧ w.allowedAmt ≠ 0 ∧
        env.withdrawFunds (firstWallet w.allowed) w.allowedAmt = none := by
  obtain ⟨hcovered, hamt, -⟩ := withdrawing_covered avail a.amtReserved a.withdrawals
  unfold Recompletes withdrawing
  simp [havail, hcovered, hamt]

instance (env : ProcessEnv) (a : FundedAddress) : Decidable (Recompletes env a) :=
  inferInstanceAs (Decidable (∃ _ ∈ _, _))

/-- The step gets to its withdrawals, and completes one of them again. -/
def StepRecompletes (env : ProcessEnv) (a : FundedAddress) : Prop :=
  a.msgCid = none ∧ a.withdrawals ≠ [] ∧
    (reservationsServed env a).any fun b =>
      b.msgCid = none ∧ b.reservations = [] ∧ Recompletes env b

instance (env : ProcessEnv) (a : FundedAddress) : Decidable (StepRecompletes env a) :=
  inferInstanceAs (Decidable (_ ∧ _ ∧ _))

def RecompletesNone (fm : FundManager) : Address × RequestEvent → Prop
  | (addr, .address (.process env)) => ¬StepRecompletes env (getFundedAddress fm addr)
  | _ => True

instance (fm : FundManager) : ∀ event, Decidable (RecompletesNone fm event)
  | (_, .address (.process _)) => inferInstanceAs (Decidable (¬_))
  | (_, .address (.msgComplete _)) | (_, .address (.waitFailed _)) => isTrue trivial
  | (_, .address (.reserve ..)) | (_, .address (.release ..)) => isTrue trivial
  | (_, .address (.withdraw ..)) | (_, .cancel _) => isTrue trivial

def completedIds (calls : List Completion) : List Nat := calls.map (·.req.id)

def reqIds (reqs : List FundRequest) : List Nat := reqs.map FundRequest.id

namespace CompletionLemmas

open ReservedLemmas

variable {env : ProcessEnv} {a a' : FundedAddress} {event : Address × RequestEvent}
  {served : List FundRequest}

/-! ## Calls of `Complete` -/

theorem completedIds_append (calls calls' : List Completion) :
    completedIds (calls ++ calls') = completedIds calls ++ completedIds calls' := map_append

theorem reqIds_append (reqs reqs' : List FundRequest) :
    reqIds (reqs ++ reqs') = reqIds reqs ++ reqIds reqs' := map_append

@[simp] theorem completedIds_completions (kind : RequestKind) (reqs : List FundRequest)
    (msgCid : Option MsgCid) (err : Option FundErr) :
    completedIds (completions kind reqs msgCid err) = reqIds reqs := map_map

/-- Calls go through exactly if no request is completed twice. -/
theorem completeAll_eq_ite {completed : List Completion} (h : (completedIds completed).Nodup)
    (calls : List Completion) :
    completeAll completed calls =
      if (completedIds (completed ++ calls)).Nodup then some (completed ++ calls) else none := by
  induction calls generalizing completed with
  | nil =>
    rw [append_nil, if_pos h]
    rfl
  | cons c calls ih =>
    have hmem : completed.any (·.req.id = c.req.id) = true ↔ c.req.id ∈ completedIds completed := by
      simp [completedIds]
    unfold completeAll
    rw [show completed ++ c :: calls = completed ++ [c] ++ calls by simp]
    by_cases hc : c.req.id ∈ completedIds completed
    · rw [if_pos (hmem.mpr hc), if_neg]
      intro hnodup
      rw [completedIds_append, completedIds_append] at hnodup
      exact (nodup_append.mp (nodup_append.mp hnodup).1).2.2 _ hc _
        mem_cons_self rfl
    · rw [if_neg (mt hmem.mp hc), ih]
      rw [completedIds_append]
      refine nodup_append.mpr ⟨h, nodup_singleton _, ?_⟩
      rintro n hn m hm rfl
      rw [mem_singleton.mp hm] at hn
      exact hc hn

theorem nodup_of_subperm {l l' : List Nat} (h : l.Subperm l') (hnodup : l'.Nodup) : l.Nodup := by
  obtain ⟨m, hperm, hsub⟩ := h
  exact hperm.nodup_iff.mp (hsub.nodup hnodup)

/-- The numbers of all requests that are known at an address. -/
def known (a : FundedAddress) : List Nat :=
  completedIds a.completed ++ (reqIds a.reservations ++ (reqIds a.releases ++ reqIds a.withdrawals))

/-- Requests have numbers of their own, below the next one. -/
structure Numbered (a : FundedAddress) : Prop where
  nodup : (known a).Nodup
  lt : ∀ n ∈ known a, n < a.nextReq

theorem Numbered.of_subperm (h : Numbered a) (hknown : (known a').Subperm (known a))
    (hnext : a'.nextReq = a.nextReq) : Numbered a' where
  nodup := nodup_of_subperm hknown h.nodup
  lt n hn := hnext ▸ h.lt n (hknown.subset hn)

theorem Numbered.completed (h : Numbered a) : (completedIds a.completed).Nodup :=
  (nodup_append.mp h.nodup).1

/-- Served requests leave the queue when they are completed. -/
theorem served_subperm (completed : List Completion) {calls : List Completion}
    (hserved : (reqIds served).Nodup) (hcalls : (completedIds calls).Subperm (reqIds served)) :
    (completedIds calls ++ reqIds (filterOutProcessedReqs (completed ++ calls) served)).Subperm
      (reqIds served) := by
  have hsub : (reqIds (filterOutProcessedReqs (completed ++ calls) served)).Sublist
      (reqIds served) := filter_sublist.map _
  have hdisj : ∀ n ∈ completedIds calls,
      ∀ m ∈ reqIds (filterOutProcessedReqs (completed ++ calls) served), n ≠ m := by
    rintro n hn m hm rfl
    obtain ⟨req, hreq, rfl⟩ := mem_map.mp hm
    obtain ⟨c, hc, hid⟩ := mem_map.mp hn
    have hnot := (mem_filter.mp hreq).2
    simp only [Bool.not_eq_true', List.any_eq_false, decide_eq_true_eq] at hnot
    exact hnot c (mem_append_right _ hc) hid
  have hnodup := nodup_append.mpr ⟨nodup_of_subperm hcalls hserved, hsub.nodup hserved, hdisj⟩
  exact hnodup.subperm (append_subset.mpr ⟨hcalls.subset, hsub.subset⟩)

/-! ## Reservations -/

theorem next_taken (s : Split) (req : FundRequest) :
    ((s.next req).toCancel ++ (s.next req).toAdd).Subperm ((s.toCancel ++ s.toAdd) ++ [req]) := by
  unfold Split.next
  dsimp only
  split_ifs
  · rw [append_assoc, append_assoc]
    exact (perm_append_comm.append_left _).subperm
  · rw [append_assoc]
  · exact (sublist_append_left _ _).subperm

theorem splitReservations_subperm (reservations releases : List FundRequest) :
    let split := splitReservations reservations releases
    (split.toCancel ++ split.toAdd).Subperm reservations := by
  have hfold : ∀ (reqs : List FundRequest) (s : Split),
      ((reqs.foldl Split.next s).toCancel ++ (reqs.foldl Split.next s).toAdd).Subperm
        ((s.toCancel ++ s.toAdd) ++ reqs) := by
    intro reqs
    induction reqs with
    | nil =>
      intro s
      rw [append_nil]
      exact Subperm.refl _
    | cons req reqs ih =>
      intro s
      rw [append_cons]
      exact (ih (s.next req)).trans ((subperm_append_right reqs).mpr (next_taken s req))
  exact hfold reservations _

/-- The calls for the reservations and releases of a step. -/
theorem processReservations_subperm :
    (completedIds (reservationCalls a (processReservations env a))).Subperm
      (reqIds (a.reservations ++ a.releases)) := by
  obtain ⟨l, hperm, hsub⟩ := splitReservations_subperm a.reservations a.releases
  have hsplit : (reqIds _).Subperm (reqIds _) := ⟨_, hperm.map _, hsub.map _⟩
  have hok : ∀ covered : List Nat, covered.Subperm (reqIds a.reservations) →
      (reqIds a.releases ++ covered).Subperm (reqIds (a.reservations ++ a.releases)) := by
    intro covered h
    rw [reqIds_append]
    exact ((subperm_append_left _).mpr h).trans perm_append_comm.subperm
  unfold processReservations
  dsimp only at hsplit ⊢
  split
  · simp only [reservationCalls, completedIds_append, completedIds_completions, reqIds_append]
    exact Subperm.refl _
  · split
    · simp only [reservationCalls, completedIds_append, completedIds_completions, append_nil]
      exact hok _ hsplit
    · split
      · simp only [reservationCalls, completedIds_append, completedIds_completions, reqIds_append]
        exact Subperm.refl _
      · simp only [reservationCalls, completedIds_append, completedIds_completions]
        rw [← reqIds_append]
        exact hok _ hsplit

/-- Calls for served requests go through. -/
theorem completeAll_served {completed calls : List Completion}
    {rest : List Nat} (h : (completedIds completed ++ (reqIds served ++ rest)).Nodup)
    (hcalls : (completedIds calls).Subperm (reqIds served)) :
    completeAll completed calls = some (completed ++ calls) ∧
      (completedIds (completed ++ calls) ++
        (reqIds (filterOutProcessedReqs (completed ++ calls) served) ++ rest)).Subperm
          (completedIds completed ++ (reqIds served ++ rest)) := by
  obtain ⟨hcompleted, hqueued, -⟩ := nodup_append.mp h
  have hserved := served_subperm completed (nodup_append.mp hqueued).1 hcalls
  have hsub := (subperm_append_left (completedIds completed)).mpr
    ((subperm_append_right rest).mpr hserved)
  rw [append_assoc, ← append_assoc, ← completedIds_append] at hsub
  refine ⟨?_, hsub⟩
  rw [completeAll_eq_ite hcompleted, if_pos]
  exact (nodup_append.mp (nodup_of_subperm hsub h)).1

theorem Numbered.stepReservations (h : Numbered a) (env : ProcessEnv) :
    ∃ a', stepReservations env a = some a' ∧ Numbered a' := by
  have hknown : known a = completedIds a.completed ++
      (reqIds (a.reservations ++ a.releases) ++ reqIds a.withdrawals) := by
    rw [reqIds_append, append_assoc]
    rfl
  obtain ⟨hall, hsub⟩ := completeAll_served (hknown ▸ h.nodup) (processReservations_subperm)
  unfold Market.stepReservations
  dsimp only
  rw [hall]
  refine ⟨_, rfl, h.of_subperm ?_ ?_⟩
  · rw [← hknown, filterOutProcessedReqs, filter_append, reqIds_append,
      append_assoc] at hsub
    split <;> exact hsub
  · split <;> rfl

/-! ## Withdrawals -/

theorem next_handled (avail reserved : Int) (s : Withdrawing) (req : FundRequest) :
    let s' := s.next avail reserved req
    (completedIds s'.calls ++ reqIds s'.allowed).Subperm
      ((completedIds s.calls ++ reqIds s.allowed) ++ [req.id]) := by
  have hcall : ∀ err, (completedIds (s.calls ++ [⟨.withdrawal, req, none, err⟩]) ++
      reqIds s.allowed).Subperm ((completedIds s.calls ++ reqIds s.allowed) ++ [req.id]) := by
    intro err
    rw [completedIds_append, append_assoc, append_assoc]
    exact (perm_append_comm.append_left _).subperm
  unfold Withdrawing.next
  dsimp only
  split
  · exact hcall none
  · split
    · exact hcall _
    · split
      · exact (sublist_append_left _ _).subperm
      · rw [reqIds_append, ← append_assoc]
        exact Subperm.refl _

/-- The loop completes or allows a withdrawal once. -/
theorem withdrawing_subperm (a : FundedAddress) (avail : Int) :
    (completedIds (withdrawing a avail).calls ++ reqIds (withdrawing a avail).allowed).Subperm
      (reqIds a.withdrawals) := by
  have hfold : ∀ (reqs : List FundRequest) (s : Withdrawing),
      let s' := reqs.foldl (Withdrawing.next avail a.amtReserved) s
      (completedIds s'.calls ++ reqIds s'.allowed).Subperm
        ((completedIds s.calls ++ reqIds s.allowed) ++ reqIds reqs) := by
    intro reqs
    induction reqs with
    | nil =>
      intro s
      exact (sublist_append_left _ _).subperm
    | cons req reqs ih =>
      intro s
      have hnext := next_handled avail a.amtReserved s req
      have hrest := ih (s.next avail a.amtReserved req)
      refine hrest.trans ?_
      rw [show reqIds (req :: reqs) = [req.id] ++ reqIds reqs from rfl, ← append_assoc]
      exact (subperm_append_right _).mpr hnext
  exact hfold a.withdrawals _

theorem processWithdrawals_subperm (h : ¬Recompletes env a) :
    (completedIds (processWithdrawals env a).2).Subperm (reqIds a.withdrawals) := by
  unfold processWithdrawals
  split
  · rw [completedIds_completions]
  · next avail havail =>
    rw [recompletes_iff havail] at h
    have hloop := withdrawing_subperm a avail
    rw [← withdrawing]
    generalize withdrawing a avail = w at h hloop
    dsimp only
    split
    · rwa [completedIds_append, completedIds_completions]
    · next hamt =>
      split
      · next hpush =>
        have hcalls : w.calls = [] := by
          by_contra hne
          exact h ⟨hne, hamt, hpush⟩
        rw [hcalls, nil_append, completedIds_completions]
      · rwa [completedIds_append, completedIds_completions]

/-- A withdrawal that the loop has completed is in the queue. -/
theorem recompletes_not_nodup (h : Recompletes env a) :
    ¬(completedIds (processWithdrawals env a).2).Nodup := by
  obtain ⟨avail, havail, -⟩ := id h
  obtain ⟨hcalls, hamt, hpush⟩ := (recompletes_iff havail).mp h
  have hloop := (withdrawing_subperm a avail).subset
  unfold processWithdrawals
  rw [havail]
  dsimp only
  rw [← withdrawing]
  generalize withdrawing a avail = w at hcalls hamt hpush hloop
  rw [if_neg hamt, hpush, completedIds_append, completedIds_completions]
  obtain ⟨c, calls, hw⟩ := exists_cons_of_ne_nil hcalls
  have hc : c.req.id ∈ completedIds w.calls := by
    rw [hw]
    exact mem_cons_self
  intro hnodup
  exact (nodup_append.mp hnodup).2.2 _ hc _ (hloop (mem_append_left _ hc)) rfl

theorem known_perm : (known a).Perm (completedIds a.completed ++
    (reqIds a.withdrawals ++ (reqIds a.reservations ++ reqIds a.releases))) := by
  refine Perm.append_left _ ?_
  rw [← append_assoc]
  exact perm_append_comm

section

variable (h : Numbered a)
include h

theorem Numbered.stepWithdrawals (hnot : ¬Recompletes env a) :
    ∃ a', stepWithdrawals env a = some a' ∧ Numbered a' := by
  obtain ⟨hall, hsub⟩ := completeAll_served ((known_perm).nodup_iff.mp h.nodup)
    (processWithdrawals_subperm hnot)
  unfold Market.stepWithdrawals
  dsimp only
  rw [hall]
  refine ⟨_, rfl, h.of_subperm ?_ ?_⟩
  · refine (known_perm).subperm.trans (List.Subperm.trans ?_ (known_perm).symm.subperm)
    split <;> exact hsub
  · split <;> rfl

/-- Withdrawals are completed twice exactly if the push fails after the loop has completed
some of them. -/
theorem stepWithdrawals_eq_none_iff : stepWithdrawals env a = none ↔ Recompletes env a := by
  constructor
  · intro hnone
    by_contra hnot
    obtain ⟨a', ha', -⟩ := h.stepWithdrawals hnot
    rw [hnone] at ha'
    cases ha'
  · intro hrec
    have hnodup := recompletes_not_nodup hrec
    unfold stepWithdrawals
    dsimp only
    rw [completeAll_eq_ite h.completed, if_neg]
    · rfl
    · rw [completedIds_append]
      exact fun hall => hnodup (nodup_append.mp hall).2.1

/-! ## Steps -/

theorem Numbered.reservationsServed (env : ProcessEnv) :
    ∃ b, reservationsServed env a = some b ∧ Numbered b := by
  unfold Market.reservationsServed
  split
  · exact h.stepReservations env
  · exact ⟨a, rfl, h⟩

/-- A step completes a request again, or ends with numbered requests. -/
theorem Numbered.process (env : ProcessEnv) : (StepRecompletes env a ∧ process env a = none) ∨
      (¬StepRecompletes env a ∧ ∃ a', process env a = some a' ∧ Numbered a') := by
  unfold StepRecompletes Market.process
  by_cases hmsg : a.msgCid = none
  · obtain ⟨b, hb, hnum⟩ := h.reservationsServed env
    rw [if_neg (not_not.mpr hmsg)]
    dsimp only
    rw [← Market.reservationsServed, hb, bind_some, any_some, decide_eq_true_eq]
    by_cases hcond : a.withdrawals ≠ [] ∧ b.msgCid = none ∧ b.reservations = []
    · rw [if_pos hcond]
      by_cases hrec : Recompletes env b
      · refine .inl ⟨⟨hmsg, hcond.1, hcond.2.1, hcond.2.2, hrec⟩, ?_⟩
        rw [(stepWithdrawals_eq_none_iff hnum).mpr hrec]
        rfl
      · obtain ⟨c, hc, hnumc⟩ := hnum.stepWithdrawals hrec
        rw [hc]
        exact .inr ⟨fun hstep => hrec hstep.2.2.2.2, _, rfl, hnumc.nodup, hnumc.lt⟩
    · rw [if_neg hcond]
      exact .inr ⟨fun hstep => hcond ⟨hstep.2.1, hstep.2.2.1, hstep.2.2.2.1⟩,
        _, rfl, hnum.nodup, hnum.lt⟩
  · rw [if_pos hmsg]
    exact .inr ⟨fun hstep => hmsg hstep.1, a, rfl, h⟩

theorem Numbered.enqueue (l m : List Nat) (hl : known a = l ++ m)
    (hl' : known a' = l ++ a.nextReq :: m) (hnext : a'.nextReq = a.nextReq + 1) : Numbered a' := by
  have hperm : (known a').Perm (a.nextReq :: known a) := by
    rw [hl, hl']
    exact perm_middle
  refine ⟨hperm.nodup_iff.mpr (nodup_cons.mpr ⟨fun hmem => lt_irrefl _ (h.lt _ hmem),
    h.nodup⟩), fun n hn => ?_⟩
  rw [hnext]
  rcases mem_cons.mp (hperm.subset hn) with rfl | hn
  · exact Nat.lt_succ_self _
  · exact Nat.lt_succ_of_lt (h.lt n hn)

theorem Numbered.addressStep {event : AddressEvent}
    (hstep : addressStep a event = some a') : Numbered a' := by
  cases event with
  | reserve wallet amt =>
    cases hstep
    exact h.enqueue (completedIds a.completed ++ reqIds a.reservations)
      (reqIds a.releases ++ reqIds a.withdrawals) (by simp [known]) (by simp [known, reqIds]) rfl
  | release amt =>
    cases hstep
    exact h.enqueue (completedIds a.completed ++ (reqIds a.reservations ++ reqIds a.releases))
      (reqIds a.withdrawals) (by simp [known]) (by simp [known, reqIds]) rfl
  | withdraw wallet amt =>
    cases hstep
    exact h.enqueue (known a) [] (by simp) (by simp [known, reqIds]) rfl
  | process env =>
    obtain ⟨-, hnone⟩ | ⟨-, b, hb, hnum⟩ := h.process env
    · exact nomatch hnone.symm.trans hstep
    · cases hb.symm.trans hstep
      exact hnum
  | msgComplete cid | waitFailed cid =>
    obtain ⟨-, hstep⟩ := ite_none_right_eq_some.mp hstep
    cases hstep
    exact ⟨h.nodup, h.lt⟩

end

theorem reqIds_map_cancel (id : Nat) (reqs : List FundRequest) :
    reqIds (reqs.map (FundRequest.cancel id)) = reqIds reqs := by
  unfold reqIds
  rw [List.map_map]
  refine map_congr_left fun req _ => ?_
  show (FundRequest.cancel id req).id = req.id
  unfold FundRequest.cancel
  split <;> rfl

theorem Numbered.cancelRequest (h : Numbered a) (id : Nat) : Numbered (cancelRequest a id) := by
  have hknown : known (Market.cancelRequest a id) = known a := by
    unfold known Market.cancelRequest
    rw [reqIds_map_cancel, reqIds_map_cancel, reqIds_map_cancel]
  exact h.of_subperm (hknown ▸ Subperm.refl _) rfl

theorem requestStep_numbered {fm fm' : FundManager}
    (h : ∀ addr, Numbered (getFundedAddress fm addr)) (hstep : requestStep fm event = some fm') :
    ∀ addr, Numbered (getFundedAddress fm' addr) := by
  obtain ⟨addr, event | id⟩ := event
  · exact fundManagerStep_forall h (fun _ ha' => (h addr).addressStep ha') hstep
  · cases hstep
    intro addr'
    unfold getFundedAddress
    rw [Table.get?_insert]
    split
    · exact (h addr).cancelRequest id
    · exact h addr'

/-- Apart from waits that there are not, a step fails exactly if it completes a request
again. -/
theorem requestStep_isSome_iff {fm : FundManager}
    (h : ∀ addr, Numbered (getFundedAddress fm addr)) (hwait : WaitsThere fm event) :
    (requestStep fm event).isSome ↔ RecompletesNone fm event := by
  obtain ⟨addr, event | id⟩ := event
  · unfold requestStep fundManagerStep
    cases event with
    | reserve | release | withdraw => exact ⟨fun _ => trivial, fun _ => rfl⟩
    | process env =>
      unfold RecompletesNone addressStep
      obtain ⟨hrec, hnone⟩ | ⟨hnot, b, hb, -⟩ := (h addr).process env
      · dsimp only
        rw [hnone]
        exact ⟨fun hsome => absurd hsome Bool.false_ne_true, fun hnot => absurd hrec hnot⟩
      · dsimp only
        rw [hb]
        exact ⟨fun _ => hnot, fun _ => rfl⟩
    | msgComplete cid | waitFailed cid =>
      have hmem : cid ∈ (getFundedAddress fm addr).waits := hwait
      dsimp only [addressStep]
      rw [if_pos hmem]
      exact ⟨fun _ => trivial, fun _ => rfl⟩
  · exact ⟨fun _ => trivial, fun _ => rfl⟩

end CompletionLemmas

open CompletionLemmas in
/-- For every run of a manager, with cancelled requests and with messages that are not
pushed or not waited for: no request is completed twice, and the run goes on, exactly if no
step has its withdrawal message not pushed after it has completed a withdrawal. -/
theorem completed_once_iff {events : List (Address × RequestEvent)}
    (hwaits : Guarded requestStep WaitsThere ∅ events) :
    (∃ fms, trace requestStep ∅ events = some fms ∧
      ∀ fm ∈ fms, ∀ addr, (completedIds (getFundedAddress fm addr).completed).Nodup) ↔
    Guarded requestStep RecompletesNone ∅ events := by
  have hstart : ∀ addr, Numbered (getFundedAddress ∅ addr) := fun _ =>
    ⟨nodup_nil, forall_mem_nil _⟩
  rw [← trace_isSome_iff (I := fun fm => ∀ addr, Numbered (getFundedAddress fm addr))
    (fun _ _ _ h hstep => requestStep_numbered h hstep)
    (fun _ _ h hwait => requestStep_isSome_iff h hwait) hstart hwaits]
  constructor
  · rintro ⟨fms, hrun, -⟩
    rw [hrun]
    rfl
  · intro hsome
    obtain ⟨fms, hrun⟩ := isSome_iff_exists.mp hsome
    refine ⟨fms, hrun, fun fm hfm addr => ?_⟩
    have hnum := trace_forall_guarded (P := fun fm => ∀ addr, Numbered (getFundedAddress fm addr))
      (fun _ _ _ h _ hstep => requestStep_numbered h hstep) hstart hrun hwaits fm hfm addr
    exact hnum.completed

/-- Two withdrawals, of which a balance of 10 allows the first one only. -/
def twoWithdrawals : List (Address × RequestEvent) :=
  [(.id 10, .address (.withdraw (.id 1) 4)), (.id 10, .address (.withdraw (.id 1) 9))]

/-- No message is pushed. -/
def pushFails (avail : Int) : ProcessEnv := ⟨some 0, some avail, fun _ _ => none, fun _ _ => none⟩

/-- With a balance of 20 both withdrawals are allowed, and get the error of the push. -/
theorem completed_once_iff_allowed :
    ∃ fms, trace requestStep ∅
        (twoWithdrawals ++ [(.id 10, .address (.process (pushFails 20)))]) = some fms ∧
      ∀ fm ∈ fms, ∀ addr, (completedIds (getFundedAddress fm addr).completed).Nodup :=
  (completed_once_iff (by decide)).mpr (by decide)

/-- With a balance of 10 the loop completes the second withdrawal with an error. The push
fails, and the withdrawal is completed again. -/
theorem withdrawal_completed_twice :
    Guarded requestStep WaitsThere ∅
        (twoWithdrawals ++ [(.id 10, .address (.process (pushFails 10)))]) ∧
      trace requestStep ∅
        (twoWithdrawals ++ [(.id 10, .address (.process (pushFails 10)))]) = none ∧
      ∃ fms, trace requestStep ∅ twoWithdrawals = some fms ∧ ∃ fm ∈ fms,
        (processWithdrawals (pushFails 10) (getFundedAddress fm (.id 10))).2.map
            (fun c => (c.req.id, c.err)) =
          [(1, some (.insufficientFunds 9 6 10 0 4)), (0, some .pushFailed),
            (1, some .pushFailed)] := by
  refine ⟨by decide, rfl, ?_⟩
  exact exists_trace (by decide)

end OpenDsn.Market
