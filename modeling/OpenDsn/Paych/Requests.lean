import OpenDsn.Paych.Funds

/-!
# Every request once

Whether a request for funds is answered and charged at most once. `processQueue` clears
the queue only if the task returns a result. A task that fills or refuses some of its
requests and then finds that nothing is left to pay returns none although other requests,
of amount zero or cancelled, are still in it: the requests it has answered stay in the
queue, and the next task answers and charges them again.

* `processTask_effect`: what a task does to answers, charges and its requests;
* `at_most_once_iff`: in every run, no request is answered twice, charged twice or left in
  the queue with an answer exactly when no task strands the requests it has answered;
* `charged_twice`: a run that takes an amount out of the available funds twice.
-/

namespace OpenDsn.Paych

open Lib Mpool List Option

namespace ChannelAccessor

/-- The requests in the queue, those of the answers and those of the charges, by their
numbers. -/
def queuedIds (ca : ChannelAccessor) : List Nat := ca.fundsReqQueue.map FundsReq.id

def answeredIds (ca : ChannelAccessor) : List Nat := ca.answers.map (·.req.id)

def chargedIds (ca : ChannelAccessor) : List Nat := ca.charges.map (·.req.id)

end ChannelAccessor

/-- No request has two answers or two charges, and none that has an answer is in the queue
for the next task. -/
structure AtMostOnce (ca : ChannelAccessor) : Prop where
  answered : ca.answeredIds.Nodup
  charged : ca.chargedIds.Nodup
  done : ca.queuedIds.Disjoint ca.answeredIds

/-- The task finds the channel without a message on its way. Of its requests some are answered with
what is available, others come behind them, and the amounts of the former are all there is. -/
def StrandsTask (env : QueueEnv) (ca : ChannelAccessor) (reqs : List FundsReq)
    (amt avail : Int) : Prop :=
  ∃ id ci, ca.store.outboundActiveByFromTo env.order env.settled ca.fromAddr ca.toAddr =
      some (id, ci) ∧ ci.createMsg = none ∧ ci.addFundsMsg = none ∧
    let (n, answered) := served env.active (toFill ci amt avail) reqs
    answered ≠ [] ∧ n < reqs.length ∧ amt ≤ amounts answered

/-- `StrandsTask` for the task of the queue. -/
def Strands (env : QueueEnv) (ca : ChannelAccessor) : Prop :=
  let ca := filterQueue env ca
  let reqs := mergedReqs env ca
  (sumReqs env.active reqs).amt ≠ 0 ∧
    StrandsTask env ca reqs (sumReqs env.active reqs).amt (sumReqs env.active reqs).avail

/-- The event is not the processing of a queue that strands requests. -/
def StrandsNone (ca : ChannelAccessor) : AccessorEvent → Prop
  | .processQueue env => ¬ Strands env ca
  | _ => True

/-- A request has a positive amount, and is not cancelled while the queue is processed. -/
def Positive : AccessorEvent → Prop
  | .getPaych amt _ => 0 < amt
  | .processQueue env => AllActive env.active
  | _ => True

namespace RequestLemmas

open FundsLemmas ChannelAccessor

variable {env : QueueEnv} {ca ca' : ChannelAccessor} {reqs : List FundsReq} {amt avail : Int}
  {given : List Answer} {charged : List Charge} {t : TaskResult}

/-! ## Tasks -/

variable (ca reqs t) in
/-- A task gives the answers `given` to requests it takes out, and charges `charged`. -/
structure TaskEffect (given : List Answer) (charged : List Charge) : Prop where
  split : ∃ n, (given.map Answer.req).Sublist (reqs.take n) ∧ t.reqs = reqs.drop n
  answers : t.ca.answers = ca.answers ++ given
  charges : t.ca.charges = ca.charges ++ charged
  charged_mem : ∀ c ∈ charged, c.req ∈ reqs
  charged_nodup : (reqs.map FundsReq.id).Nodup → (charged.map (·.req.id)).Nodup
  queue : t.ca.fundsReqQueue = ca.fundsReqQueue
  nextReq : t.ca.nextReq = ca.nextReq

/-- The charges of a list of requests to one source. -/
theorem charge_ids (source : Source) :
    ((reqs.map (⟨·, source⟩ : FundsReq → Charge)).map (·.req.id)) = reqs.map FundsReq.id := by
  rw [List.map_map]
  rfl

theorem toCreate_sublist (active : Activity) : (toCreate active reqs).Sublist reqs :=
  filter_sublist.trans (dropWhile_sublist _)

theorem toAdd_sublist (active : Activity) {answers : List Answer} :
    (toAdd active reqs answers).Sublist reqs :=
  filter_sublist.trans filter_sublist

theorem stranded_iff (active : Activity) (ci : ChannelInfo) (amt : Int) :
    let s := served active avail reqs
    let f := completeAmount active avail ci reqs
    (s.2 ≠ [] ∧ s.1 < reqs.length ∧ amt ≤ amounts s.2) ↔
      (reqs.drop f.next ≠ [] ∧ amt ≤ f.used + f.failed) ∧ f.answers ≠ [] := by
  intro s f
  obtain ⟨hanswers, hamount, hnext, -⟩ := completeAmount_served active avail ci reqs
  have hanswers : f.answers ≠ [] ↔ s.2 ≠ [] := by
    rw [show s.2 = f.answers.map Answer.req from hanswers.symm, Ne, Ne, map_eq_nil_iff]
  have hleft : reqs.drop s.1 ≠ [] ↔ s.1 < reqs.length := by rw [Ne, drop_eq_nil_iff, not_le]
  rw [hnext, hamount, hanswers, hleft]
  exact and_comm

section

variable (env ca)

/-- A task without a channel always returns a result. -/
theorem processNoChannel_effect (reqs : List FundsReq) (amt avail : Int) :
    (processNoChannel env ca reqs amt avail).res ≠ none ∧
      ∃ given charged, TaskEffect ca reqs (processNoChannel env ca reqs amt avail) given
        charged := by
  have hsub := failOffChainNoChannel_sublist env.active ca.fromAddr ca.toAddr reqs
  have hrefused : ∀ res, TaskEffect ca reqs
      ⟨res, reqs.drop (failOffChainNoChannel env.active ca.fromAddr ca.toAddr reqs).next,
        { ca with answers := ca.answers ++
          (failOffChainNoChannel env.active ca.fromAddr ca.toAddr reqs).answers }⟩
      (failOffChainNoChannel env.active ca.fromAddr ca.toAddr reqs).answers [] := fun _ =>
    ⟨⟨_, hsub, rfl⟩, rfl, (append_nil _).symm, forall_mem_nil _,
      fun _ => nodup_nil, rfl, rfl⟩
  unfold processNoChannel
  dsimp only
  split_ifs
  · exact ⟨some_ne_none _, _, _, hrefused _⟩
  · refine ⟨some_ne_none _, _, _, ⟨_, hsub, rfl⟩, rfl, rfl, ?_, ?_, rfl, rfl⟩
    · exact forall_mem_map.mpr fun r hr => (toCreate_sublist env.active).subset hr
    · intro hnodup
      rw [charge_ids]
      exact ((toCreate_sublist env.active).map _).nodup hnodup
  · exact ⟨some_ne_none _, _, _, hrefused _⟩

/-- The requests that `completeAmount` fills are among those it answers. -/
theorem filledReqs_sublist {answers : List Answer} :
    (filledReqs answers).Sublist (answers.map Answer.req) := filter_sublist.map _

theorem mem_of_filledReqs {active : Activity} {ci : ChannelInfo} {r : FundsReq}
    (h : r ∈ filledReqs (completeAmount active avail ci reqs).answers) : r ∈ reqs :=
  (take_sublist _ _).subset
    ((completeAmount_sublist reqs).subset (filledReqs_sublist.subset h))

/-- What is filled and what goes into a message are different requests. -/
theorem filled_toAdd_nodup {active : Activity} {ci : ChannelInfo}
    (h : (reqs.map FundsReq.id).Nodup) :
    ((filledReqs (completeAmount active avail ci reqs).answers ++
      toAdd active reqs (completeAmount active avail ci reqs).answers).map FundsReq.id).Nodup := by
  rw [map_append, nodup_append']
  refine ⟨?_, ((toAdd_sublist active).map _).nodup h, ?_⟩
  · exact (((filledReqs_sublist.trans (completeAmount_sublist reqs)).trans
      (take_sublist _ _)).map _).nodup h
  · intro id hfilled hadd
    obtain ⟨r, hr, rfl⟩ := mem_map.mp hfilled
    obtain ⟨r', hr', heq⟩ := mem_map.mp hadd
    obtain rfl : r' = r := inj_on_of_nodup_map h ((toAdd_sublist active).subset hr')
      (mem_of_filledReqs hr) heq
    exact of_decide_eq_true (mem_filter.mp hr').2 (filledReqs_sublist.subset hr)

/-- A task with a channel. It returns nothing if requests are left and no amount is. -/
theorem processChannel_effect (id : ChannelId)
    (ci : ChannelInfo) (reqs : List FundsReq) (amt avail : Int) :
    let filling := completeAmount env.active (toFill ci amt avail) ci reqs
    ∃ charged, TaskEffect ca reqs (processChannel env ca id ci reqs amt avail) filling.answers
        charged ∧
      ((processChannel env ca id ci reqs amt avail).res = none ↔
        reqs.drop filling.next ≠ [] ∧ amt ≤ filling.used + filling.failed) ∧
      ((processChannel env ca id ci reqs amt avail).res = none → filling.answers = [] →
        charged = []) := by
  intro filling
  have hsub : (filling.answers.map Answer.req).Sublist (reqs.take filling.next) :=
    completeAmount_sublist reqs
  have hnodup : (reqs.map FundsReq.id).Nodup → ((filledReqs filling.answers ++
      toAdd env.active reqs filling.answers).map FundsReq.id).Nodup := filled_toAdd_nodup
  -- All cases but that of a message charge what is filled, and differ in the result.
  have hfilled : ∀ res, TaskEffect ca reqs ⟨res, reqs.drop filling.next,
      ca.filled id (toFill ci amt avail) filling⟩ filling.answers
      ((filledReqs filling.answers).map (⟨·, .available id⟩)) := by
    intro res
    refine ⟨⟨_, hsub, rfl⟩, rfl, rfl, ?_, ?_, rfl, rfl⟩
    · exact forall_mem_map.mpr fun r hr => mem_of_filledReqs hr
    · intro h
      rw [charge_ids]
      exact ((sublist_append_left _ _).map _).nodup (hnodup h)
  unfold processChannel
  dsimp only
  split_ifs with hleft hamt
  · exact ⟨_, hfilled _, ⟨False.elim, fun h => absurd hleft h.1⟩, False.elim⟩
  · refine ⟨_, hfilled _, ⟨fun _ => ⟨hleft, sub_nonpos.mp hamt⟩, fun _ => rfl⟩, fun _ hnil => ?_⟩
    rw [hnil]
    rfl
  · refine ⟨(filledReqs filling.answers).map (⟨·, .available id⟩ : FundsReq → Charge) ++
      (toAdd env.active reqs filling.answers).map (⟨·, .message id ca.nextMsg⟩ : FundsReq → Charge),
      ⟨⟨_, hsub, rfl⟩, rfl, append_assoc _ _ _, ?_, ?_, rfl, rfl⟩,
      ⟨False.elim, fun h => absurd (sub_nonpos.mpr h.2) hamt⟩, False.elim⟩
    · exact forall_mem_append.mpr ⟨(hfilled none).charged_mem,
        forall_mem_map.mpr fun r hr => (toAdd_sublist _).subset hr⟩
    · intro h
      rw [map_append, charge_ids, charge_ids, ← map_append]
      exact hnodup h
  · exact ⟨_, hfilled _, ⟨False.elim, fun h => absurd (sub_nonpos.mpr h.2) hamt⟩, False.elim⟩

/-- A task: what it gives and charges, that it strands requests exactly if it returns
nothing after giving answers, and that it charges nothing if it only waits. -/
theorem processTask_effect (reqs : List FundsReq) (amt avail : Int) :
    ∃ given charged, TaskEffect ca reqs (processTask env ca reqs amt avail) given charged ∧
      (StrandsTask env ca reqs amt avail ↔
        (processTask env ca reqs amt avail).res = none ∧ given ≠ []) ∧
      ((processTask env ca reqs amt avail).res = none → given = [] → charged = []) := by
  unfold processTask StrandsTask
  split
  · next hnone =>
    obtain ⟨hres, given, charged, heffect⟩ := processNoChannel_effect env ca reqs amt avail
    refine ⟨given, charged, heffect, ⟨?_, fun h => absurd h.1 hres⟩, fun h => absurd h hres⟩
    rintro ⟨id, ci, hsome, -⟩
    rw [hnone] at hsome
    cases hsome
  · next id ci hsome =>
    split
    · next hmsg =>
      refine ⟨[], [], ⟨⟨0, nil_sublist _, rfl⟩, (append_nil _).symm,
        (append_nil _).symm, forall_mem_nil _, fun _ => nodup_nil,
        rfl, rfl⟩, ⟨?_, fun h => absurd rfl h.2⟩, fun _ _ => rfl⟩
      rintro ⟨id', ci', hsome', hcreate, hadd, -⟩
      obtain ⟨-, rfl⟩ := Prod.mk.inj (mem_unique hsome hsome')
      rw [hcreate, hadd] at hmsg
      cases hmsg
    · next hmsg =>
      obtain ⟨hcreate, hadd⟩ : ci.createMsg = none ∧ ci.addFundsMsg = none := by
        simpa using hmsg
      obtain ⟨charged, heffect, hnone, hcharged⟩ :=
        processChannel_effect env ca id ci reqs amt avail
      refine ⟨_, charged, heffect, ?_, hcharged⟩
      rw [hnone]
      refine .trans ⟨?_, fun h => ⟨id, ci, hsome, hcreate, hadd, h⟩⟩
        (stranded_iff env.active ci amt)
      rintro ⟨id', ci', hsome', -, -, h⟩
      obtain ⟨rfl, rfl⟩ := Prod.mk.inj (mem_unique hsome hsome')
      exact h

end

/-! ## Steps -/

/-- Requests have numbers of their own, and none that is in the queue has been charged. -/
structure Numbered (ca : ChannelAccessor) : Prop where
  queued : ca.queuedIds.Nodup
  queued_lt : ∀ i ∈ ca.queuedIds, i < ca.nextReq
  answered_lt : ∀ i ∈ ca.answeredIds, i < ca.nextReq
  charged_lt : ∀ i ∈ ca.chargedIds, i < ca.nextReq
  notCharged : ca.queuedIds.Disjoint ca.chargedIds

/-- The queue may lose requests, and nothing is answered or charged. -/
structure Waits (ca ca' : ChannelAccessor) : Prop where
  queued : ca'.queuedIds.Sublist ca.queuedIds
  answered : ca'.answeredIds = ca.answeredIds
  charged : ca'.chargedIds = ca.chargedIds
  nextReq : ca'.nextReq = ca.nextReq

theorem Waits.of_keeps (h : KeepsRequests ca ca') : Waits ca ca' where
  queued := by unfold queuedIds; rw [h.queue]
  answered := by unfold answeredIds; rw [h.answers]
  charged := by unfold chargedIds; rw [h.charges]
  nextReq := h.nextReq

theorem Waits.numbered (h : Waits ca ca') (hnum : Numbered ca) : Numbered ca' where
  queued := h.queued.nodup hnum.queued
  queued_lt i hi := h.nextReq ▸ hnum.queued_lt i (h.queued.subset hi)
  answered_lt := by rw [h.answered, h.nextReq]; exact hnum.answered_lt
  charged_lt := by rw [h.charged, h.nextReq]; exact hnum.charged_lt
  notCharged := by
    rw [h.charged]
    exact disjoint_of_subset_left h.queued.subset hnum.notCharged

theorem Waits.atMostOnce (h : Waits ca ca') (honce : AtMostOnce ca) : AtMostOnce ca' where
  answered := h.answered ▸ honce.answered
  charged := h.charged ▸ honce.charged
  done := by rw [h.answered]; exact disjoint_of_subset_left h.queued.subset honce.done

/-- The queue is cleared, and some of its requests are answered and charged. -/
structure Clears (ca ca' : ChannelAccessor) : Prop where
  queued : ca'.queuedIds = []
  answered : ∃ new, ca'.answeredIds = ca.answeredIds ++ new ∧ new.Nodup ∧ new ⊆ ca.queuedIds
  charged : ∃ new, ca'.chargedIds = ca.chargedIds ++ new ∧ new.Nodup ∧ new ⊆ ca.queuedIds
  nextReq : ca'.nextReq = ca.nextReq

theorem Clears.numbered (h : Clears ca ca') (hnum : Numbered ca) : Numbered ca' := by
  obtain ⟨newA, hanswered, -, hsubA⟩ := h.answered
  obtain ⟨newC, hcharged, -, hsubC⟩ := h.charged
  refine ⟨h.queued ▸ nodup_nil, ?_, ?_, ?_, ?_⟩
  · rw [h.queued]
    exact forall_mem_nil _
  · rw [hanswered, h.nextReq]
    exact forall_mem_append.mpr
      ⟨hnum.answered_lt, fun i hi => hnum.queued_lt i (hsubA hi)⟩
  · rw [hcharged, h.nextReq]
    exact forall_mem_append.mpr
      ⟨hnum.charged_lt, fun i hi => hnum.queued_lt i (hsubC hi)⟩
  · rw [h.queued]
    exact disjoint_nil_left _

theorem Clears.atMostOnce (h : Clears ca ca') (hnum : Numbered ca) (honce : AtMostOnce ca) :
    AtMostOnce ca' := by
  obtain ⟨newA, hanswered, hnodupA, hsubA⟩ := h.answered
  obtain ⟨newC, hcharged, hnodupC, hsubC⟩ := h.charged
  refine ⟨?_, ?_, ?_⟩
  · rw [hanswered]
    exact honce.answered.append hnodupA (disjoint_of_subset_right hsubA honce.done.symm)
  · rw [hcharged]
    exact honce.charged.append hnodupC (disjoint_of_subset_right hsubC hnum.notCharged.symm)
  · rw [h.queued]
    exact disjoint_nil_left _

theorem filterQueue_waits (env : QueueEnv) (ca : ChannelAccessor) :
    Waits ca (filterQueue env ca) := ⟨filter_sublist.map _, rfl, rfl, rfl⟩

namespace TaskEffect

variable {active : Activity} {res : PaychFundsRes}

/-- The answers of a task that finishes are to different requests of it. -/
theorem answered_sublist (h : TaskEffect ca reqs t given charged) (p : FundsReq → Bool) :
    (given.map Answer.req ++ t.reqs.filter p).Sublist reqs := by
  obtain ⟨n, hsub, hleft⟩ := h.split
  have happend : (given.map Answer.req ++ (reqs.drop n).filter p).Sublist
      (reqs.take n ++ reqs.drop n) := hsub.append filter_sublist
  rw [take_append_drop] at happend
  rwa [hleft]

/-- A task that finishes clears the queue that it is made of. -/
theorem clears (h : TaskEffect ca reqs t given charged) (hperm : reqs.Perm ca.fundsReqQueue)
    (hnodup : ca.queuedIds.Nodup) : Clears ca (t.finish active res) := by
  have hids : (reqs.map FundsReq.id).Nodup := (hperm.map _).nodup_iff.mpr hnodup
  have hsub := h.answered_sublist (active .complete)
  refine ⟨rfl, ⟨(given.map Answer.req ++ t.reqs.filter (active .complete)).map FundsReq.id, ?_,
    (hsub.map _).nodup hids, ?_⟩, ⟨charged.map (·.req.id), ?_, h.charged_nodup hids, ?_⟩,
    h.nextReq⟩
  · show (t.ca.answers ++ (t.reqs.filter (active .complete)).map _).map _ = _ ++ _
    rw [h.answers]
    simp only [map_append, List.map_map, append_assoc]
    rfl
  · exact fun i hi => (hperm.map _).subset ((hsub.map _).subset hi)
  · show t.ca.charges.map _ = _
    rw [h.charges, map_append]
    rfl
  · exact forall_mem_map.mpr fun c hc =>
      mem_map_of_mem (hperm.subset (h.charged_mem c hc))

/-- A task that gives no answer and charges nothing. -/
theorem waits (h : TaskEffect ca reqs t [] []) : Waits ca t.ca :=
  .of_keeps ⟨h.queue, h.answers.trans (append_nil _), h.charges.trans (append_nil _),
    h.nextReq⟩

/-- A task that gives answers but does not clear the queue. -/
theorem not_atMostOnce (h : TaskEffect ca reqs t given charged)
    (hperm : reqs.Perm ca.fundsReqQueue) (hgiven : given ≠ []) : ¬ AtMostOnce t.ca := by
  intro honce
  obtain ⟨a, ha⟩ := exists_mem_of_ne_nil given hgiven
  obtain ⟨n, hsub, -⟩ := h.split
  have hreq : a.req ∈ t.ca.fundsReqQueue := by
    rw [h.queue]
    exact hperm.subset
      ((take_sublist n reqs).subset (hsub.subset (mem_map_of_mem ha)))
  have hanswer : a ∈ t.ca.answers := h.answers ▸ mem_append_right _ ha
  exact honce.done (mem_map_of_mem hreq) (mem_map_of_mem hanswer)

end TaskEffect

/-- The processing of the queue keeps the numbers, and answers and charges once, exactly
if it does not strand requests. -/
theorem processQueue_step (hnum : Numbered ca) (honce : AtMostOnce ca) :
    (¬ Strands env ca → Numbered (processQueue env ca).1) ∧
      (AtMostOnce (processQueue env ca).1 ↔ ¬ Strands env ca) := by
  have hfilter := filterQueue_waits env ca
  have hnum' := hfilter.numbered hnum
  have honce' := hfilter.atMostOnce honce
  have hperm := mergedReqs_perm env (filterQueue env ca)
  obtain ⟨given, charged, heffect, hstrands, hcharged⟩ :=
    processTask_effect env (filterQueue env ca) (mergedReqs env (filterQueue env ca))
      (sumReqs env.active (mergedReqs env (filterQueue env ca))).amt
      (sumReqs env.active (mergedReqs env (filterQueue env ca))).avail
  rcases processQueue_cases env ca with ⟨hzero, heq⟩ | ⟨hamt, hres, heq⟩ | ⟨hamt, res, hres, heq⟩
  · rw [heq]
    exact ⟨fun _ => hnum', fun _ h => h.1 hzero, fun _ => honce'⟩
  · rw [heq]
    by_cases hgiven : given = []
    · obtain rfl := hgiven
      obtain rfl := hcharged hres rfl
      have hnot : ¬ Strands env ca := fun h => (hstrands.mp h.2).2 rfl
      exact ⟨fun _ => heffect.waits.numbered hnum', fun _ => hnot,
        fun _ => heffect.waits.atMostOnce honce'⟩
    · have hstrand : Strands env ca := ⟨hamt, hstrands.mpr ⟨hres, hgiven⟩⟩
      exact ⟨fun h => absurd hstrand h,
        fun h => absurd h (heffect.not_atMostOnce hperm hgiven), fun h => absurd hstrand h⟩
  · rw [heq]
    have hclears : Clears (filterQueue env ca) ((queueTask env ca).finish env.active res) :=
      heffect.clears hperm hnum'.queued
    have hnot : ¬ Strands env ca := by
      intro h
      have hnone := (hstrands.mp h.2).1
      rw [show (queueTask env ca).res = none from hnone] at hres
      cases hres
    exact ⟨fun _ => hclears.numbered hnum', fun _ => hnot, fun _ => hclears.atMostOnce hnum' honce'⟩

variable {event : AccessorEvent}

theorem strandsNone_of_ne (h : ∀ env, event ≠ .processQueue env) : StrandsNone ca event := by
  cases event with
  | processQueue env => exact absurd rfl (h env)
  | _ => exact trivial

theorem getPaych_step (amt : Int) (opts : GetOpts) (hnum : Numbered ca) (honce : AtMostOnce ca) :
    Numbered (getPaych ca amt opts) ∧ AtMostOnce (getPaych ca amt opts) := by
  unfold getPaych
  split
  · exact ⟨hnum, honce⟩
  · have hqueued : ∀ {ids : List Nat}, (∀ i ∈ ids, i < ca.nextReq) →
        ca.queuedIds.Disjoint ids → (ca.queuedIds ++ [ca.nextReq]).Disjoint ids := by
      intro ids hlt hdisjoint
      refine disjoint_append_left.mpr ⟨hdisjoint, singleton_disjoint.mpr fun hmem => ?_⟩
      exact lt_irrefl _ (hlt _ hmem)
    have hids : (ca.fundsReqQueue ++ [(⟨ca.nextReq, amt, opts⟩ : FundsReq)]).map FundsReq.id =
        ca.queuedIds ++ [ca.nextReq] := map_append
    have hnew : (ca.queuedIds ++ [ca.nextReq]).Nodup :=
      hnum.queued.append (nodup_singleton _)
        (disjoint_singleton.mpr fun hmem => lt_irrefl _ (hnum.queued_lt _ hmem))
    refine ⟨⟨?_, ?_, fun i hi => (hnum.answered_lt i hi).trans (Nat.lt_succ_self _),
      fun i hi => (hnum.charged_lt i hi).trans (Nat.lt_succ_self _), ?_⟩,
      honce.answered, honce.charged, ?_⟩
    all_goals
      unfold queuedIds
      rw [hids]
    · exact hnew
    · exact forall_mem_snoc (fun i hi => (hnum.queued_lt i hi).trans (Nat.lt_succ_self _))
        (Nat.lt_succ_self _)
    · exact hqueued hnum.charged_lt hnum.notCharged
    · exact hqueued hnum.answered_lt honce.done

theorem accessorStep_once (hnum : Numbered ca) (honce : AtMostOnce ca)
    (h : accessorStep ca event = some ca') :
    (StrandsNone ca event → Numbered ca') ∧ (AtMostOnce ca' ↔ StrandsNone ca event) := by
  obtain ⟨amt, opts, rfl, rfl⟩ | ⟨env, rfl, rfl⟩ | ⟨hevent, hkeeps⟩ := accessorStep_cases h
  · have hstep := getPaych_step amt opts hnum honce
    exact ⟨fun _ => hstep.1, fun _ => trivial, fun _ => hstep.2⟩
  · exact processQueue_step hnum honce
  · have hwaits := Waits.of_keeps hkeeps
    exact ⟨fun _ => hwaits.numbered hnum, fun _ => strandsNone_of_ne hevent,
      fun _ => hwaits.atMostOnce honce⟩

/-! ## Amounts that are left -/

theorem amounts_pos (hne : reqs ≠ []) (hpos : ∀ r ∈ reqs, 0 < r.amt) : 0 < amounts reqs := by
  cases reqs with
  | nil => exact absurd rfl hne
  | cons r rest =>
    obtain ⟨hr, hrest⟩ := forall_mem_cons.mp hpos
    have hnonneg : 0 ≤ (rest.map FundsReq.amt).sum :=
      sum_nonneg (forall_mem_map.mpr fun r' hr' => (hrest r' hr').le)
    show 0 < r.amt + (rest.map FundsReq.amt).sum
    omega

/-- Without cancelled requests, what is left to pay is the amounts of the requests that are
left. -/
theorem left_amount (hactive : AllActive env.active) (ci : ChannelInfo) :
    let filling := completeAmount env.active avail ci reqs
    (sumReqs env.active reqs).amt - (filling.used + filling.failed) =
      amounts (reqs.drop filling.next) := by
  intro filling
  have htook : Took (reqs.take filling.next) avail filling := completeAmount_took hactive _ _ reqs
  have hsplit : amounts reqs =
      amounts (reqs.take filling.next) + amounts (reqs.drop filling.next) := by
    rw [← amounts_append, take_append_drop]
  rw [sumReqs_of_active hactive, htook.amount]
  rw [hsplit, add_sub_cancel_left]

theorem processQueue_queue_subset : (processQueue env ca).1.fundsReqQueue ⊆ ca.fundsReqQueue := by
  obtain ⟨_, _, heffect, -⟩ := processTask_effect env (filterQueue env ca)
    (mergedReqs env (filterQueue env ca)) _ _
  rcases processQueue_cases env ca with ⟨-, heq⟩ | ⟨-, -, heq⟩ | ⟨-, res, -, heq⟩
  · rw [heq]
    exact filter_subset_self _
  · rw [heq, show (queueTask env ca).ca.fundsReqQueue = _ from heffect.queue]
    exact filter_subset_self _
  · rw [heq]
    exact nil_subset _

/-- A request in the queue was there before, or is new and reserves if it is off-chain. -/
theorem mem_queue_of_step {r : FundsReq}
    (hstep : accessorStep ca event = some ca') (hr : r ∈ ca'.fundsReqQueue) :
    r ∈ ca.fundsReqQueue ∨ ∃ amt opts, event = .getPaych amt opts ∧
      r = ⟨ca.nextReq, amt, opts⟩ ∧ (opts.offChain = true → opts.reserve = true) := by
  obtain ⟨amt, opts, rfl, rfl⟩ | ⟨env, rfl, rfl⟩ | ⟨-, hkeeps⟩ := accessorStep_cases hstep
  · unfold getPaych at hr
    split at hr
    · exact .inl hr
    · next hopts =>
      rcases mem_append.mp hr with hr | hr
      · exact .inl hr
      · refine .inr ⟨amt, opts, rfl, mem_singleton.mp hr, fun hoff => ?_⟩
        rw [hoff, Bool.and_true] at hopts
        simpa using hopts
  · exact .inl (processQueue_queue_subset hr)
  · exact .inl (hkeeps.queue ▸ hr)

/-- What a run with positive amounts keeps. -/
structure PositiveInv (ca : ChannelAccessor) : Prop where
  numbered : Numbered ca
  once : AtMostOnce ca
  pos : ∀ r ∈ ca.fundsReqQueue, 0 < r.amt

theorem PositiveInv.step (h : PositiveInv ca) (hevent : Positive event)
    (hstep : accessorStep ca event = some ca') : PositiveInv ca' := by
  have hstrands : StrandsNone ca event := by
    cases event with
    | processQueue env =>
      -- Positive amounts that nobody cancels are not stranded.
      rintro ⟨-, id, ci, -, -, -, hstranded⟩
      obtain ⟨⟨hleft, hamt⟩, -⟩ := (stranded_iff _ ci _).mp hstranded
      have hlt := amounts_pos hleft fun r hr =>
        h.pos r (mem_of_mem_filter ((mergedReqs_perm env _).subset (mem_of_mem_drop hr)))
      rw [← left_amount hevent] at hlt
      exact absurd hamt (not_le.mpr (sub_pos.mp hlt))
    | _ => exact trivial
  obtain ⟨hnum, honce⟩ := accessorStep_once h.numbered h.once hstep
  refine ⟨hnum hstrands, honce.mpr hstrands, fun r hr => ?_⟩
  rcases mem_queue_of_step hstep hr with hr | ⟨amt, opts, rfl, rfl, -⟩
  · exact h.pos r hr
  · exact hevent

theorem numbered_new (store : Store) (fromAddr toAddr : Address) :
    Numbered (newChannelAccessor store fromAddr toAddr) where
  queued := nodup_nil
  queued_lt := forall_mem_nil _
  answered_lt := forall_mem_nil _
  charged_lt := forall_mem_nil _
  notCharged := disjoint_nil_left _

theorem atMostOnce_new (store : Store) (fromAddr toAddr : Address) :
    AtMostOnce (newChannelAccessor store fromAddr toAddr) where
  answered := nodup_nil
  charged := nodup_nil
  done := disjoint_nil_left _

end RequestLemmas

open RequestLemmas in
/-- For every run of an accessor on any store, with any interleaving of events and of
cancelled requests: every request is answered and charged at most once, and not left in the
queue with an answer, exactly if no processing of the queue strands the requests that it
has answered. -/
theorem at_most_once_iff {store : Store} {fromAddr toAddr : Address}
    {events : List AccessorEvent} {states : List ChannelAccessor}
    (hrun : trace accessorStep (newChannelAccessor store fromAddr toAddr) events = some states) :
    (∀ ca ∈ states, AtMostOnce ca) ↔
      Guarded accessorStep StrandsNone (newChannelAccessor store fromAddr toAddr) events := by
  have hinv : ∀ ca event ca', Numbered ca → AtMostOnce ca → StrandsNone ca event →
      accessorStep ca event = some ca' → Numbered ca' :=
    fun _ _ _ hnum honce hguard hstep => (accessorStep_once hnum honce hstep).1 hguard
  exact trace_forall_iff hinv (fun _ _ _ hnum honce hstep => (accessorStep_once hnum honce hstep).2)
    (numbered_new store fromAddr toAddr) (atMostOnce_new store fromAddr toAddr) hrun

/-! ## Runs -/

instance (ca : ChannelAccessor) : Decidable (AtMostOnce ca) :=
  decidable_of_iff (ca.answeredIds.Nodup ∧ ca.chargedIds.Nodup ∧
      ∀ i ∈ ca.queuedIds, i ∉ ca.answeredIds)
    ⟨fun ⟨ha, hc, hd⟩ => ⟨ha, hc, hd⟩, fun h => ⟨h.answered, h.charged, h.done⟩⟩

/-- Nobody cancels, no channel is settling, and every message is pushed. -/
def calm : QueueEnv where
  active _ _ := true
  sorter := stableSorter
  order := .listed
  settled _ := false
  pushed := true

def onChain (reserve : Bool) : GetOpts := ⟨reserve, false⟩

/-- A channel is created with 6 that are not reserved. -/
def funded : List AccessorEvent :=
  [.getPaych 6 (onChain false), .processQueue calm, .waitMsg 0 (.confirmed (.id 100)),
    .msgWaitComplete 0]

/-- 3 are reserved, and 5 added. -/
def reserveAndAdd : List AccessorEvent :=
  funded ++ [.getPaych 3 (onChain true), .getPaych 5 (onChain false), .processQueue calm,
    .processQueue calm]

/-- 3 are reserved, and nothing added. -/
def reserveAndAddZero : List AccessorEvent :=
  funded ++ [.getPaych 3 (onChain true), .getPaych 0 (onChain false), .processQueue calm,
    .processQueue calm]

/-- The reservation takes 3 of the available funds, and the rest goes into a message. -/
theorem at_most_once_iff_add :
    ∃ states, trace accessorStep (newChannelAccessor .empty (.id 1) (.id 2)) reserveAndAdd =
        some states ∧
      (∃ ca ∈ states, ca.answeredIds = [0, 1, 2] ∧ ca.chargedIds = [0, 1, 2]) ∧
      Guarded accessorStep StrandsNone (newChannelAccessor .empty (.id 1) (.id 2))
        reserveAndAdd :=
  exists_trace_imp (p := fun states => (∃ ca ∈ states, ca.answeredIds = [0, 1, 2] ∧
      ca.chargedIds = [0, 1, 2]) ∧ ∀ ca ∈ states, AtMostOnce ca) (by decide)
    fun _ hrun h => ⟨h.1, (at_most_once_iff hrun).mp h.2⟩

/-- The reservation is answered twice, and both times it takes 3 of the available funds. -/
theorem charged_twice :
    ∃ states, trace accessorStep (newChannelAccessor .empty (.id 1) (.id 2)) reserveAndAddZero =
        some states ∧
      ∃ ca ∈ states, ca.answeredIds = [0, 1, 1] ∧
        ca.charges.map Charge.source = [.message 0 0, .available 0, .available 0] ∧
        (ca.store.byChannelID 0).map ChannelInfo.availableAmount = some 0 :=
  exists_trace (by decide)

end OpenDsn.Paych
