import OpenDsn.Lib.Run

/-!
# The deal publisher

`markets/storageadapter/dealpublisher.go`: deals wait in a queue until it is
full, until the publish period of its first deal is over, or until someone
forces the publishing; then one message publishes them all. A deal whose
context was cancelled is dropped from the queue.

Everything happens under one lock, so a run is a list of events, each of which
takes the lock once. The timer of a publish period is a goroutine of its own: it
publishes when its time has come, also when it was cancelled just then, or it
stops. Timers are on time: the clock does not go past one that is due.

The published deals are the ones handed to `publishReady`.

* `publishes_in_time`: as long as no deal arrives while a timer runs whose deals
  have all been cancelled, every pending deal is covered by a timer and every
  deal is published within the publish period;
* `queued_without_timer`: when one does, the timer is cancelled but its start is
  remembered, and the deal waits without a timer.
-/

namespace OpenDsn.Market

open Lib List Option

structure PublishConfig where
  maxDealsPerPublishMsg : Nat
  publishPeriod : Nat

/-- A deal in the queue: the context it was submitted with, and when it was
queued (which the source does not note). -/
structure PendingDeal where
  ctx : Nat
  queuedAt : Nat

/-- The goroutine of `waitForMoreDeals`: when its timer was started, whether its
context was cancelled, and whether it has returned. -/
structure PublishTimer where
  started : Nat
  cancelled : Bool
  done : Bool

/-- A timer whose goroutine is still to publish. -/
def PublishTimer.armed (t : PublishTimer) : Bool := !t.cancelled && !t.done

structure DealPublisher where
  now : Nat
  /-- The contexts that were cancelled. -/
  cancelled : List Nat
  pending : List PendingDeal
  /-- The goroutine that `cancelWaitForMoreDeals` cancels. -/
  cancelWaitForMoreDeals : Option Nat
  publishPeriodStart : Option Nat
  timers : List PublishTimer
  /-- The deals that were put into the queue, and those that were published
  with the time. -/
  queued : List PendingDeal
  published : List (PendingDeal × Nat)

inductive PublishEvent
  /-- A deal is submitted with this context. -/
  | newDeal (ctx : Nat)
  | cancel (ctx : Nat)
  | forcePublish
  /-- A timer goroutine receives from its timer and publishes. -/
  | expire (timer : Nat)
  /-- A timer goroutine sees its context done. -/
  | stop (timer : Nat)
  | tick (d : Nat)

namespace DealPublisher

def new (now : Nat) : DealPublisher :=
  { now := now
    cancelled := []
    pending := []
    cancelWaitForMoreDeals := none
    publishPeriodStart := none
    timers := []
    queued := []
    published := [] }

section

variable (cfg : PublishConfig) (p : DealPublisher)

/-- `ctx.Err() == nil`. -/
def alive (d : PendingDeal) : Bool := decide (d.ctx ∉ p.cancelled)

def filterCancelledDeals : DealPublisher :=
  { p with pending := p.pending.filter p.alive }

/-- The call of `cancelWaitForMoreDeals`, which is then set to `nil`. -/
def cancelTimer : DealPublisher :=
  match p.cancelWaitForMoreDeals with
  | none => p
  | some i =>
      { p with
        timers := p.timers.modify i fun t => { t with cancelled := true }
        cancelWaitForMoreDeals := none }

def publishAllDeals : DealPublisher :=
  -- If the timeout hasn't yet been cancelled, cancel it.
  let p :=
    if p.cancelWaitForMoreDeals.isSome then { p.cancelTimer with publishPeriodStart := none }
    else p
  let p := p.filterCancelledDeals
  { p with
    pending := []
    published := p.published ++ p.pending.map fun d => (d, p.now) }

def waitForMoreDeals : DealPublisher :=
  if p.publishPeriodStart.isSome then p
  else
    { p with
      timers := p.timers ++ [⟨p.now, false, false⟩]
      publishPeriodStart := some p.now
      cancelWaitForMoreDeals := some p.timers.length }

/-- The queue is filtered, and a timer whose deals are all gone is cleared:
`cancelWaitForMoreDeals` is reset, `publishPeriodStart` is not. -/
def dropCancelled : DealPublisher :=
  let p := p.filterCancelledDeals
  if p.pending = [] then p.cancelTimer else p

def enqueue (ctx : Nat) : DealPublisher :=
  { p with
    pending := p.pending ++ [⟨ctx, p.now⟩]
    queued := p.queued ++ [⟨ctx, p.now⟩] }

def processNewDeal (ctx : Nat) : DealPublisher :=
  let p := p.dropCancelled
  if ctx ∈ p.cancelled then p
  else
    let p := p.enqueue ctx
    if cfg.maxDealsPerPublishMsg ≤ p.pending.length ∨ cfg.publishPeriod = 0 then p.publishAllDeals
    else p.waitForMoreDeals

def finish (i : Nat) : DealPublisher :=
  { p with timers := p.timers.modify i fun t => { t with done := true } }

def step : PublishEvent → Option DealPublisher
  | .newDeal ctx => some (p.processNewDeal cfg ctx)
  | .cancel ctx => some { p with cancelled := ctx :: p.cancelled }
  | .forcePublish => some p.publishAllDeals
  | .expire i => do
      let t ← p.timers[i]?
      -- A context that is done at the same time does not keep it from publishing.
      if !t.done ∧ t.started + cfg.publishPeriod ≤ p.now then
        some (p.publishAllDeals.finish i)
      else none
  | .stop i => do
      let t ← p.timers[i]?
      if !t.done ∧ t.cancelled then some (p.finish i) else none
  | .tick d =>
      if ∀ t ∈ p.timers, t.armed → p.now + d ≤ t.started + cfg.publishPeriod then
        some { p with now := p.now + d }
      else none

end

/-! ## What the events keep -/

/-- A new deal finds no timer, or a timer one of whose deals is still wanted. -/
def Wanted (p : DealPublisher) : PublishEvent → Prop
  | .newDeal _ => p.cancelWaitForMoreDeals.isSome → ∃ d ∈ p.pending, p.alive d
  | _ => True

instance : ∀ p e, Decidable (Wanted p e)
  | p, .newDeal _ => inferInstanceAs
      (Decidable (p.cancelWaitForMoreDeals.isSome → ∃ d ∈ p.pending, p.alive d))
  | _, .cancel _ => isTrue trivial
  | _, .forcePublish => isTrue trivial
  | _, .expire _ => isTrue trivial
  | _, .stop _ => isTrue trivial
  | _, .tick _ => isTrue trivial

/-- The invariant inside a critical section. -/
structure Timed (cfg : PublishConfig) (p : DealPublisher) : Prop where
  /-- `publishPeriodStart` is set while there is a timer to cancel. -/
  period : p.publishPeriodStart.isSome = p.cancelWaitForMoreDeals.isSome
  /-- Without a timer there are no deals but a new one. -/
  fresh : p.cancelWaitForMoreDeals = none → ∀ d ∈ p.pending, d.queuedAt = p.now
  /-- The timer was started before the deals were queued. -/
  timer : ∀ i, p.cancelWaitForMoreDeals = some i →
    ∃ t, p.timers[i]? = some t ∧ t.armed ∧ ∀ d ∈ p.pending, t.started ≤ d.queuedAt
  /-- Every other timer was cancelled or has returned. -/
  current : ∀ i t, p.timers[i]? = some t → t.armed → p.cancelWaitForMoreDeals = some i
  started : ∀ t ∈ p.timers, t.started ≤ p.now
  onTime : ∀ t ∈ p.timers, t.armed → p.now ≤ t.started + cfg.publishPeriod
  history : ∀ d ∈ p.queued, p.alive d →
    d ∈ p.pending ∨ ∃ time, (d, time) ∈ p.published ∧ time ≤ d.queuedAt + cfg.publishPeriod

/-- The invariant whenever the lock is free. -/
structure Covered (cfg : PublishConfig) (p : DealPublisher) : Prop extends Timed cfg p where
  idle : p.cancelWaitForMoreDeals = none → p.pending = []

namespace DealPublisherLemmas

variable {cfg : PublishConfig} {p : DealPublisher} {f : PublishTimer → PublishTimer}

theorem due_of_timed (h : Timed cfg p) {d : PendingDeal} (hd : d ∈ p.pending) :
    p.now ≤ d.queuedAt + cfg.publishPeriod := by
  cases hc : p.cancelWaitForMoreDeals with
  | none =>
    have hnow := h.fresh hc d hd
    omega
  | some i =>
    obtain ⟨t, ht, harmed, hbefore⟩ := h.timer i hc
    have hq := hbefore d hd
    have htime := h.onTime t (mem_of_getElem? ht) harmed
    omega

theorem timed_filter (h : Timed cfg p) : Timed cfg p.filterCancelledDeals where
  __ := h
  fresh hc d hd := h.fresh hc d (mem_of_mem_filter hd)
  timer i hc := by
    obtain ⟨t, ht, harmed, hbefore⟩ := h.timer i hc
    exact ⟨t, ht, harmed, fun d hd => hbefore d (mem_of_mem_filter hd)⟩
  history d hd halive := by
    rcases h.history d hd halive with hp | hp
    · exact .inl (mem_filter.mpr ⟨hp, halive⟩)
    · exact .inr hp

/-- A timer that was cancelled, or has returned, is not armed any more. -/
theorem armed_modify {i j : Nat}
    (hf : ∀ t, (f t).armed = true → False) {l : List PublishTimer} {t : PublishTimer}
    (ht : (l.modify i f)[j]? = some t) (harmed : t.armed) : l[j]? = some t ∧ i ≠ j := by
  rw [getElem?_modify] at ht
  obtain ⟨u, hu, rfl⟩ := map_eq_some_iff.mp ht
  by_cases hij : i = j
  · rw [if_pos hij] at harmed
    exact (hf u harmed).elim
  · rw [if_neg hij]
    exact ⟨hu, hij⟩

theorem not_armed_done (t : PublishTimer) :
    PublishTimer.armed { t with done := true } = true → False := by
  simp [PublishTimer.armed]

theorem started_of_mem_modify {i n : Nat}
    (hf : ∀ t, (f t).started = t.started) {l : List PublishTimer}
    (h : ∀ t ∈ l, t.started ≤ n) : ∀ t ∈ l.modify i f, t.started ≤ n := by
  intro t ht
  rcases mem_modify ht with ht | ⟨u, hu, rfl⟩
  · exact h t ht
  · exact hf u ▸ h u (mem_of_getElem? hu)

/-- The queue is emptied into the published deals, but for the cancelled ones. -/
theorem publishAllDeals_eq
    (h : p.publishPeriodStart.isSome = p.cancelWaitForMoreDeals.isSome) :
    p.publishAllDeals =
      { p with
        timers := p.cancelTimer.timers
        cancelWaitForMoreDeals := none
        publishPeriodStart := none
        pending := []
        published := p.published ++ (p.pending.filter p.alive).map fun d => (d, p.now) } := by
  obtain ⟨now, cancelled, pending, cancel, start, timers, queued, published⟩ := p
  cases cancel with
  | none =>
    obtain rfl : start = none := by simpa using h
    rfl
  | some i => rfl

/-- The timer that is cancelled was the only one. -/
theorem not_armed_cancelTimer
    (h : ∀ i t, p.timers[i]? = some t → t.armed → p.cancelWaitForMoreDeals = some i) :
    ∀ t ∈ p.cancelTimer.timers, t.armed = false := by
  intro t ht
  obtain ⟨j, hj⟩ := mem_iff_getElem?.mp ht
  rw [← Bool.not_eq_true]
  intro harmed
  unfold cancelTimer at hj
  cases hc : p.cancelWaitForMoreDeals with
  | none =>
    rw [hc] at hj
    have hcur := h j t hj harmed
    rw [hc] at hcur
    cases hcur
  | some i =>
    rw [hc] at hj
    obtain ⟨hold, hne⟩ := armed_modify (fun t => by simp [PublishTimer.armed]) hj harmed
    have hcur := h j t hold harmed
    rw [hc] at hcur
    exact hne (some.inj hcur)

theorem started_cancelTimer (h : ∀ t ∈ p.timers, t.started ≤ p.now) :
    ∀ t ∈ p.cancelTimer.timers, t.started ≤ p.now := by
  unfold cancelTimer
  split
  · exact h
  · exact started_of_mem_modify (f := fun t => { t with cancelled := true }) (fun _ => rfl) h

/-- Publishing is in time for all deals in the queue. -/
theorem covered_publishAllDeals (h : Timed cfg p) : Covered cfg p.publishAllDeals := by
  rw [publishAllDeals_eq h.period]
  exact
    { period := rfl
      fresh _ d hd := by cases hd
      timer i hc := by cases hc
      started := started_cancelTimer h.started
      current := by
        intro i t ht harmed
        have hno := not_armed_cancelTimer h.current t (mem_of_getElem? ht)
        rw [harmed] at hno
        cases hno
      onTime := by
        intro t ht harmed
        rw [not_armed_cancelTimer h.current t ht] at harmed
        cases harmed
      history := by
        intro d hd halive
        rcases h.history d hd halive with hp | ⟨time, htime, hle⟩
        · refine .inr ⟨p.now, mem_append_right _ ?_, due_of_timed h hp⟩
          exact mem_map.mpr ⟨d, mem_filter.mpr ⟨hp, halive⟩, rfl⟩
        · exact .inr ⟨time, mem_append_left _ htime, hle⟩
      idle _ := rfl }

theorem timed_enqueue (h : Covered cfg p) (ctx : Nat) : Timed cfg (p.enqueue ctx) where
  __ := h
  fresh hc := by
    refine forall_mem_snoc (fun d hd => ?_) rfl
    rw [h.idle hc] at hd
    cases hd
  timer i hc := by
    obtain ⟨t, ht, harmed, hbefore⟩ := h.timer i hc
    refine ⟨t, ht, harmed, forall_mem_snoc hbefore ?_⟩
    exact h.started t (mem_of_getElem? ht)
  history d hd halive := by
    rcases mem_append.mp hd with hd | hd
    · rcases h.history d hd halive with hp | hp
      · exact .inl (mem_append_left _ hp)
      · exact .inr hp
    · exact .inl (mem_append_right _ hd)

theorem covered_waitForMoreDeals (h : Timed cfg p) : Covered cfg p.waitForMoreDeals := by
  unfold waitForMoreDeals
  split
  · next hs =>
    -- A timer runs already.
    refine { h with idle := fun hc => ?_ }
    rw [h.period, hc] at hs
    cases hs
  · next hs =>
    have hc : p.cancelWaitForMoreDeals = none := by
      rw [h.period, Bool.not_eq_true, isSome_eq_false_iff, isNone_iff_eq_none] at hs
      exact hs
    exact
      { period := rfl
        fresh hc := by cases hc
        timer := by
          intro i hi
          cases hi
          exact ⟨⟨p.now, false, false⟩, getElem?_concat_length, rfl,
            fun d hd => Nat.le_of_eq (h.fresh hc d hd).symm⟩
        current := by
          intro i t ht harmed
          rcases getElem?_concat_cases ht with ht | ⟨rfl, -⟩
          · have hcur := h.current i t ht harmed
            rw [hc] at hcur
            cases hcur
          · rfl
        started := forall_mem_snoc h.started (Nat.le_refl _)
        onTime := forall_mem_snoc h.onTime fun _ => Nat.le_add_right _ _
        history := h.history
        idle hc := by cases hc }

/-- A timer whose deals are not all cancelled stays. -/
theorem covered_dropCancelled (h : Covered cfg p)
    (hw : p.cancelWaitForMoreDeals.isSome → ∃ d ∈ p.pending, p.alive d) :
    Covered cfg p.dropCancelled := by
  have hfilter : Covered cfg p.filterCancelledDeals :=
    { timed_filter h.toTimed with
      idle hc := by
        show p.pending.filter p.alive = []
        rw [h.idle hc]
        rfl }
  unfold dropCancelled
  dsimp only
  split
  · next hnil =>
    have hnone : p.filterCancelledDeals.cancelWaitForMoreDeals = none := by
      cases hc : p.cancelWaitForMoreDeals with
      | none => exact hc
      | some i =>
        obtain ⟨d, hd, halive⟩ := hw (by rw [hc]; rfl)
        have hmem : d ∈ p.filterCancelledDeals.pending := mem_filter.mpr ⟨hd, halive⟩
        rw [hnil] at hmem
        cases hmem
    unfold cancelTimer
    rw [hnone]
    exact hfilter
  · exact hfilter

theorem covered_finish (h : Covered cfg p) {i : Nat}
    (hi : ∀ j, p.cancelWaitForMoreDeals = some j → j ≠ i) : Covered cfg (p.finish i) where
  __ := h
  timer j hc := by
    obtain ⟨t, ht, hrest⟩ := h.timer j hc
    refine ⟨t, ?_, hrest⟩
    show (p.timers.modify i _)[j]? = _
    rw [getElem?_modify_ne _ _ (Ne.symm (hi j hc))]
    exact ht
  current j t ht harmed := h.current j t (armed_modify not_armed_done ht harmed).1 harmed
  started :=
    started_of_mem_modify (f := fun t => { t with done := true }) (fun _ => rfl) h.started
  onTime t ht harmed := by
    obtain ⟨j, hj⟩ := mem_iff_getElem?.mp ht
    have hold := (armed_modify not_armed_done hj harmed).1
    exact h.onTime t (mem_of_getElem? hold) harmed

theorem covered_new (now : Nat) : Covered cfg (new now) where
  period := rfl
  fresh _ d hd := by cases hd
  timer i hc := by cases hc
  current i t ht := by cases ht
  started t ht := by cases ht
  onTime t ht := by cases ht
  history d hd := by cases hd
  idle _ := rfl

theorem covered_cancel (h : Covered cfg p) (ctx : Nat) :
    Covered cfg { p with cancelled := ctx :: p.cancelled } where
  __ := h
  history d hd halive := by
    refine h.history d hd ?_
    simp only [alive, mem_cons, not_or, decide_eq_true_eq] at halive ⊢
    exact halive.2

theorem covered_tick (h : Covered cfg p) {d : Nat}
    (htime : ∀ t ∈ p.timers, t.armed → p.now + d ≤ t.started + cfg.publishPeriod) :
    Covered cfg { p with now := p.now + d } where
  __ := h
  fresh hc e he := by
    have hnil : p.pending = [] := h.idle hc
    rw [show e ∈ p.pending ↔ e ∈ [] from by rw [hnil]] at he
    cases he
  started t ht := Nat.le_trans (h.started t ht) (Nat.le_add_right _ _)
  onTime := htime

/-- What an event that is possible has done. -/
inductive StepCase (cfg : PublishConfig) (p : DealPublisher) : PublishEvent → DealPublisher → Prop
  | newDeal (ctx) : StepCase cfg p (.newDeal ctx) (p.processNewDeal cfg ctx)
  | cancel (ctx) : StepCase cfg p (.cancel ctx) { p with cancelled := ctx :: p.cancelled }
  | forcePublish : StepCase cfg p .forcePublish p.publishAllDeals
  | expire (i) : StepCase cfg p (.expire i) (p.publishAllDeals.finish i)
  | stop (i t) : p.timers[i]? = some t → t.cancelled = true → StepCase cfg p (.stop i) (p.finish i)
  | tick (d) : (∀ t ∈ p.timers, t.armed → p.now + d ≤ t.started + cfg.publishPeriod) →
      StepCase cfg p (.tick d) { p with now := p.now + d }

theorem step_cases {e : PublishEvent} {p' : DealPublisher} (h : p.step cfg e = some p') :
    StepCase cfg p e p' := by
  cases e with
  | newDeal ctx => cases h; exact .newDeal ctx
  | cancel ctx => cases h; exact .cancel ctx
  | forcePublish => cases h; exact .forcePublish
  | expire i =>
    obtain ⟨t, ht, h⟩ := bind_eq_some_iff.mp h
    split at h
    · cases h; exact .expire i
    · cases h
  | stop i =>
    obtain ⟨t, ht, h⟩ := bind_eq_some_iff.mp h
    split at h
    · next hc => cases h; exact .stop i t ht hc.2
    · cases h
  | tick d =>
    simp only [step] at h
    split at h
    · next htime => cases h; exact .tick d htime
    · cases h

theorem covered_processNewDeal (h : Covered cfg p) (ctx : Nat)
    (hw : p.cancelWaitForMoreDeals.isSome → ∃ d ∈ p.pending, p.alive d) :
    Covered cfg (p.processNewDeal cfg ctx) := by
  have hdrop := covered_dropCancelled h hw
  unfold processNewDeal
  dsimp only
  split
  · exact hdrop
  · have henqueue := timed_enqueue hdrop ctx
    split
    · exact covered_publishAllDeals henqueue
    · exact covered_waitForMoreDeals henqueue

theorem covered_step {e : PublishEvent} {p' : DealPublisher} (h : Covered cfg p)
    (hw : Wanted p e) (hs : p.step cfg e = some p') : Covered cfg p' := by
  cases step_cases hs with
  | newDeal ctx => exact covered_processNewDeal h ctx hw
  | cancel ctx => exact covered_cancel h ctx
  | forcePublish => exact covered_publishAllDeals h.toTimed
  | expire i =>
    refine covered_finish (covered_publishAllDeals h.toTimed) fun j hj => ?_
    rw [publishAllDeals_eq h.period] at hj
    cases hj
  | stop i t ht hc =>
    refine covered_finish h fun j hj hji => ?_
    obtain ⟨t', ht', harmed, -⟩ := h.timer j hj
    rw [hji, ht] at ht'
    cases ht'
    simp [PublishTimer.armed, hc] at harmed
  | tick d htime => exact covered_tick h htime

end DealPublisherLemmas

open DealPublisherLemmas

/-- What the publisher promises in one state: a pending deal that is not
cancelled is covered by a timer that was started at most a publish period ago,
and a deal that was queued and not cancelled is still pending or was published
in time. -/
structure InTime (cfg : PublishConfig) (p : DealPublisher) : Prop where
  covered : (∃ d ∈ p.pending, p.alive d) →
    ∃ t ∈ p.timers, t.armed ∧ t.started ≤ p.now ∧ p.now ≤ t.started + cfg.publishPeriod
  published : ∀ d ∈ p.queued, p.alive d → (d ∈ p.pending ∧ p.now ≤ d.queuedAt + cfg.publishPeriod) ∨
    ∃ time, (d, time) ∈ p.published ∧ time ≤ d.queuedAt + cfg.publishPeriod

theorem Covered.inTime {cfg : PublishConfig} {p : DealPublisher} (h : Covered cfg p) :
    InTime cfg p where
  covered := by
    rintro ⟨d, hd, -⟩
    cases hc : p.cancelWaitForMoreDeals with
    | none => rw [h.idle hc] at hd; cases hd
    | some i =>
      obtain ⟨t, ht, harmed, -⟩ := h.timer i hc
      have hmem := mem_of_getElem? ht
      exact ⟨t, hmem, harmed, h.started t hmem, h.onTime t hmem harmed⟩
  published d hd halive := by
    rcases h.history d hd halive with hp | hp
    · exact .inl ⟨hp, due_of_timed h.toTimed hp⟩
    · exact .inr hp

/-- In every run in which a new deal never finds a timer all of whose deals were
cancelled, the publisher keeps its promise. -/
theorem publishes_in_time (cfg : PublishConfig) (now : Nat) (events : List PublishEvent)
    (states : List DealPublisher) (hrun : trace (step cfg) (new now) events = some states)
    (hwanted : Guarded (step cfg) Wanted (new now) events) :
    ∀ p ∈ states, InTime cfg p := fun p hp =>
  (trace_forall_guarded (fun _ _ _ h hw hs => covered_step h hw hs) (covered_new now) hrun hwanted
    p hp).inTime

/-- Two deals in one period, of which the first is cancelled before the second
arrives after it: the second is published when the period of a third is over. -/
theorem publishes_in_time_third :
    ∃ states, trace (step ⟨10, 5⟩) (new 0)
        [.newDeal 1, .newDeal 2, .cancel 1, .newDeal 3, .tick 5, .expire 0] = some states ∧
      ∀ p ∈ states, InTime ⟨10, 5⟩ p :=
  exists_trace_of (by decide) fun _ hrun => publishes_in_time _ _ _ _ hrun (by decide)

/-- The only deal is cancelled, another one comes: it stays in the queue, with
no timer, and is not published when the period is long over. -/
theorem queued_without_timer :
    ∃ states, trace (step ⟨10, 5⟩) (new 0) [.newDeal 1, .cancel 1, .newDeal 2, .tick 100] =
        some states ∧
      ¬ ∀ p ∈ states, InTime ⟨10, 5⟩ p := by
  refine exists_trace_imp (p := fun states => ∃ p ∈ states, (∃ d ∈ p.pending, p.alive d) ∧
    ∀ t ∈ p.timers, ¬ t.armed) (by decide) ?_
  rintro states - ⟨p, hp, hpending, harmed⟩ h
  obtain ⟨t, ht, htarmed, -⟩ := (h p hp).covered hpending
  exact harmed t ht htarmed

end DealPublisher

end OpenDsn.Market
