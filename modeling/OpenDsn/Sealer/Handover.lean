import OpenDsn.Sealer.Sched

/-!
# Where the requests are

A request that was submitted is in the queue, in a window that is on its way to a worker or
active there, or it is handed to a worker, until it is answered or removed. The scheduler and
the goroutines of the workers pass the requests on to each other.

* `requests_kept`: each request is in one place in every state of a run, if no request that stays
  in the queue compares equal to one that is assigned, other than the last, no window is sent to a
  full channel, and no worker leaves with a window in its channel.
-/

namespace OpenDsn.Sealer

open Lib List Option

variable {F : Type} {m : Received}

/-- The windows that are not sent yet. -/
def Sched.unsent (s : Sched F) : List (WorkerID × SchedWindow F) :=
  match s.phase with
  | .deliver windows => windows
  | _ => []

/-- How often a request is in the queue, in a window, with a worker, or answered or removed. -/
def Sched.places (s : Sched F) (r : WorkerRequest) : Nat :=
  s.queue.count r + (todos (s.unsent.map Prod.snd)).count r +
    s.workers.total (fun w => w.places.count r) + s.settled.count r

/-- The step passes on every request it takes: what compares equal to a request that is assigned,
other than the last, is assigned as well, there is room for a window that is sent, and a worker that
leaves has no window in its channel. -/
def PassesOn [Float64 F] (table : ResourceTable F) (s : Sched F) : SchedEvent F → Prop
  | .assign ok arrange => Untied (s.pass table ok arrange) s.queue
  | .deliver => ∀ e ∈ s.unsent.head?, ∀ w ∈ s.workers.get? e.1,
      w.scheduledWindows.length < schedWindows
  | .remove wid => ∀ w ∈ s.workers.get? wid, w.scheduledWindows.length = 0
  | _ => True

instance [Float64 F] (table : ResourceTable F) (s : Sched F) : ∀ e, Decidable (PassesOn table s e)
  | .assign ok arrange => inferInstanceAs (Decidable (Untied (s.pass table ok arrange) s.queue))
  | .deliver => inferInstanceAs (Decidable (∀ e ∈ s.unsent.head?, ∀ w ∈ s.workers.get? e.1,
      w.scheduledWindows.length < schedWindows))
  | .remove wid => inferInstanceAs (Decidable (∀ w ∈ s.workers.get? wid,
      w.scheduledWindows.length = 0))
  | .add .. | .receive _ | .endGather | .request _ | .worker .. => isTrue trivial

namespace HandoverLemmas

open WorkerLemmas SchedLemmas AssignerLemmas Sched

variable {srt : QueueSort} {table : ResourceTable F} {s s' : Sched F}
  {wid : WorkerID} {w w' : SchedWorker F} {r : WorkerRequest}

/-! ### The places -/

theorem places_setWorker (hw : s.workers.get? wid = some w) (w' : SchedWorker F)
    (r : WorkerRequest) :
    (s.setWorker wid w').places r + w.places.count r = s.places r + w'.places.count r := by
  have htotal := Table.total_insert_of_some (fun w => w.places.count r) hw w'
  unfold places
  dsimp only [setWorker, unsent] at htotal ⊢
  omega

/-- A change of the worker that leaves its requests as they are. -/
theorem places_setWorker_same (hw : s.workers.get? wid = some w)
    (hplaces : w'.places.count r = w.places.count r) :
    (s.setWorker wid w').places r = s.places r := by
  have hset := places_setWorker hw w' r
  omega

theorem places_goto (phase : WorkerPhase) (hw : w.phase ≠ .gone) (hphase : phase ≠ .gone) :
    (w.goto phase).places.count r = w.places.count r := by
  rw [count_places_running hw, count_places_running hphase]
  rfl

theorem count_unsent (wids : List WorkerID) (windows : List (SchedWindow F))
    (hlen : windows.length = wids.length) :
    (todos (((wids.zip windows).filter fun e => e.2.todo.length ≠ 0).map Prod.snd)).count r =
      (todos windows).count r := by
  induction windows generalizing wids with
  | nil => rw [zip_nil_right]; rfl
  | cons window windows ih =>
    cases wids with
    | nil => cases hlen
    | cons wid wids =>
      have hrest := ih wids (Nat.succ.inj hlen)
      rw [zip_cons_cons, filter_cons, count_todos_cons]
      split
      · rw [map_cons, count_todos_cons, hrest]
      · next hempty =>
        simp only [ne_eq, decide_not, Bool.not_eq_true', decide_eq_false_iff_not, not_not,
          length_eq_zero_iff] at hempty
        rw [hrest, hempty, count_nil, zero_add]

/-- Windows are sent with `workersLk` held. -/
theorem unsent_of_unlocked (h : s.locked = false) : s.unsent = [] := by
  unfold locked at h
  unfold unsent
  split
  · next hdeliver =>
    rw [hdeliver] at h
    cases h
  · rfl

/-! ### Messages -/

/-- A message adds a request to the places when it is submitted, and moves one at most. -/
theorem places_accepted (h : Accepted srt s m s') (r : WorkerRequest) :
    s'.places r + s.submitted.count r = s.places r + s'.submitted.count r := by
  cases h with
  | keep m _ => rfl
  | rm id i x hx =>
    have hremove := (remove_perm srt hx).count_eq r
    rw [count_cons_eq] at hremove
    unfold places
    dsimp only [unsent]
    rw [count_append]
    omega
  | disable wid w next hw hphase =>
    have hgone := (running_of_eq hphase).1
    have hset := places_setWorker_same (r := r) hw (places_goto (.awaiting next) hgone nofun)
    exact congrArg (· + s.submitted.count r) hset
  | schedule x _ =>
    have hpush := (srt.perm (s.queue ++ [x])).count_eq r
    rw [count_append] at hpush
    unfold places
    dsimp only [unsent, push]
    rw [count_append]
    omega
  | window wid rest _ => rfl
  | initWait => rfl

theorem places_disableWorker : (s.disableWorker srt wid).places r = s.places r := by
  rcases disableWorker_cases srt s wid with heq | ⟨w, next, hw, hphase, heq⟩
  · rw [heq]
  · have hgone : w.phase ≠ .gone := by rw [hphase]; nofun
    have hgone' : (w.disabled next).phase ≠ .gone := by cases next <;> nofun
    have hqueue := (perm_requeue srt s.queue w.activeWindows).count_eq r
    have hset := places_setWorker hw (w.disabled next) r
    rw [count_places_running hgone, count_places_running hgone'] at hset
    rw [count_append] at hqueue
    rw [heq]
    unfold places at hset ⊢
    dsimp only [unsent, setWorker, held, SchedWorker.disabled] at hset ⊢
    rw [count_todos_nil] at hset
    omega

/-! ### The invariant -/

/-- The worker is there, and has not left. -/
def Present (s : Sched F) (wid : WorkerID) : Prop :=
  ∃ w, s.workers.get? wid = some w ∧ w.phase ≠ .gone

structure Kept (s : Sched F) : Prop where
  places : ∀ r, s.places r = s.submitted.count r
  nodup : s.submitted.Nodup
  sorted : s.queue.Pairwise fun a b => b.less a = false
  unsent : ∀ e ∈ s.unsent, Present s e.1

theorem Kept.queue_nodup (h : Kept s) : s.queue.Nodup := by
  refine nodup_iff_count_le_one.mpr fun r => ?_
  have hle := nodup_iff_count_le_one.mp h.nodup r
  have hplaces := h.places r
  unfold Sched.places at hplaces
  omega

theorem present_setWorker (hw : s.workers.get? wid = some w)
    (hphase : w.phase ≠ .gone → w'.phase ≠ .gone) {wid' : WorkerID} (h : Present s wid') :
    Present (s.setWorker wid w') wid' := by
  obtain ⟨x, hx, hgone⟩ := h
  unfold Present
  dsimp only [setWorker]
  rw [Table.get?_insert]
  split
  · next hwid =>
    subst hwid
    obtain rfl := mem_unique hw hx
    exact ⟨w', rfl, hphase hgone⟩
  · exact ⟨x, hx, hgone⟩

/-- A worker changes, and keeps its requests but for those that are answered. -/
theorem Kept.setWorker (h : Kept s) (hw : s.workers.get? wid = some w)
    {answered : List WorkerRequest} (hphase : w.phase ≠ .gone → w'.phase ≠ .gone)
    (hplaces : ∀ r, w'.places.count r + answered.count r = w.places.count r) :
    Kept { s.setWorker wid w' with settled := s.settled ++ answered } := by
  refine ⟨fun r => ?_, h.nodup, h.sorted, fun e he => present_setWorker hw hphase (h.unsent e he)⟩
  have hset := places_setWorker hw w' r
  have hcount := hplaces r
  have hs := h.places r
  unfold Sched.places at hset hs ⊢
  dsimp only [Sched.setWorker, Sched.unsent] at hset hs ⊢
  rw [count_append]
  omega

/-- No request is before a smaller one. -/
def Sorted (queue : List WorkerRequest) : Prop := queue.Pairwise fun a b => b.less a = false

theorem sorted_accepted (h : Accepted srt s m s') (hsorted : Sorted s.queue) :
    Sorted s'.queue := by
  cases h with
  | rm id i x hx | schedule x hx => exact srt.sorted _
  | keep | disable | window | initWait => exact hsorted

theorem nodup_accepted (h : Accepted srt s m s') (hnodup : s.submitted.Nodup) :
    s'.submitted.Nodup := by
  cases h with
  | schedule x hx =>
    exact nodup_append.mpr ⟨hnodup, nodup_singleton _, fun a ha b hb hab =>
      hx (mem_singleton.mp hb ▸ hab ▸ ha)⟩
  | keep | rm | disable | window | initWait => exact hnodup

/-- A message is received when no window is to be sent. -/
theorem Kept.accepted (h : Kept s) (haccept : Accepted srt s m s')
    (hunsent : s.unsent = []) : Kept s' ∧ s'.unsent = [] := by
  have hunsent' : s'.unsent = [] := by
    unfold Sched.unsent at hunsent ⊢
    rw [phase_accepted haccept]
    exact hunsent
  refine ⟨⟨fun r => ?_, nodup_accepted haccept h.nodup, sorted_accepted haccept h.sorted, ?_⟩,
    hunsent'⟩
  · have hmove := places_accepted haccept r
    have hs := h.places r
    omega
  · rw [hunsent']
    exact forall_mem_nil _

theorem Kept.setPhase (h : Kept s) {phase : SchedPhase F} (hunsent : s.unsent = [])
    (hphase : (s.setPhase phase).unsent = []) : Kept (s.setPhase phase) := by
  refine ⟨fun r => ?_, h.nodup, h.sorted, ?_⟩
  · refine Eq.trans ?_ (h.places r)
    unfold Sched.places
    rw [hunsent, hphase]
    rfl
  · rw [hphase]
    exact forall_mem_nil _

theorem sorted_requeue {queue : List WorkerRequest} (windows : List (SchedWindow F))
    (h : Sorted queue) : Sorted (Sched.requeue srt queue windows) := by
  have hpush : ∀ (todo queue : List WorkerRequest), Sorted queue →
      Sorted (todo.foldl (push srt) queue) := by
    intro todo
    induction todo with
    | nil => exact fun _ hqueue => hqueue
    | cons r todo ih => exact fun queue _ => ih _ (srt.sorted _)
  induction windows generalizing queue with
  | nil => exact h
  | cons window windows ih => exact ih (hpush window.todo queue h)

/-- Everything but the queue, the windows, the workers and the answers stays. -/
theorem disableWorker_frame :
    (s.disableWorker srt wid).submitted = s.submitted ∧
    (s.disableWorker srt wid).phase = s.phase ∧
    (Sorted s.queue → Sorted (s.disableWorker srt wid).queue) := by
  rcases disableWorker_cases srt s wid with heq | ⟨w, next, -, -, heq⟩
  · rw [heq]
    exact ⟨rfl, rfl, id⟩
  · rw [heq]
    exact ⟨rfl, rfl, sorted_requeue _⟩

theorem Kept.disableWorker (h : Kept s) (hunsent : s.unsent = []) :
    Kept (s.disableWorker srt wid) ∧ (s.disableWorker srt wid).unsent = [] := by
  obtain ⟨hsubmitted, hphase, hsorted⟩ := disableWorker_frame
  have hunsent' : (s.disableWorker srt wid).unsent = [] := by
    unfold Sched.unsent at hunsent ⊢
    rw [hphase]
    exact hunsent
  refine ⟨⟨fun r => ?_, ?_, hsorted h.sorted, ?_⟩, hunsent'⟩
  · rw [places_disableWorker, hsubmitted]
    exact h.places r
  · rw [hsubmitted]
    exact h.nodup
  · rw [hunsent']
    exact forall_mem_nil _

/-! ### Windows -/

variable [Float64 F]

theorem sorted_trySched {p : Pass F} {q : List WorkerRequest}
    (h : Sorted q) : Sorted (trySched srt p q).1 := by
  unfold trySched
  split
  · exact h
  · unfold lowestUtilizationWS
    dsimp only
    generalize (p.assignLoop q.zipIdx _).rmQueue = rm
    cases rm with
    | nil => exact h
    | cons i rm => exact srt.sorted _

variable {ok : WorkerRequest → WorkerID → Option (Bool × Bool)}
  {arrange : WorkerRequest → Arrangement}

omit [Float64 F] in
/-- A pass reads the workers that have not left. -/
theorem worker_of_pass {handle : WorkerHandle F}
    (h : (s.pass table ok arrange).workers wid = some handle) :
    ∃ w, s.workers.get? wid = some w ∧ w.phase ≠ .gone ∧ handle = w.handle := by
  dsimp only [Sched.pass] at h
  split at h
  · cases h
  next w hw =>
  split at h
  · cases h
  · next hgone => exact ⟨w, hw, hgone, (some.inj h).symm⟩

/-- A window with requests is one of a worker that is there. -/
theorem present_unsent :
    ∀ e ∈ (s.trySched srt (s.pass table ok arrange)).unsent, Present s e.1 := by
  intro e he
  obtain ⟨hzip, hfull⟩ := mem_filter.mp he
  obtain ⟨i, hi⟩ := mem_iff_getElem?.mp hzip
  obtain ⟨hopen, hwindow⟩ := getElem?_zip_eq_some.mp hi
  have hall := trySched_forall (p := s.pass table ok arrange)
    (Q := fun i window => window.todo ≠ [] → ∃ wid, s.openWindows[i]? = some wid ∧ Present s wid)
    (fun task i wid worker window hopen hworker _ _ _ => by
      obtain ⟨w, hw, hgone, -⟩ := worker_of_pass hworker
      exact ⟨wid, hopen, w, hw, hgone⟩)
    (fun i hne => absurd rfl hne) srt s.queue
  have hne : e.2.todo ≠ [] := by
    intro hnil
    rw [decide_eq_true_eq, hnil] at hfull
    exact hfull rfl
  obtain ⟨wid, hwid, hpresent⟩ := hall i e.2 hwindow hne
  obtain rfl := mem_unique hopen hwid
  exact hpresent

theorem Kept.trySched (h : Kept s) (hunsent : s.unsent = [])
    (huntied : Untied (s.pass table ok arrange) s.queue) :
    Kept (s.trySched srt (s.pass table ok arrange)) := by
  refine ⟨fun r => ?_, h.nodup, sorted_trySched h.sorted, present_unsent⟩
  have hpass : (todos (Sealer.trySched srt (s.pass table ok arrange) s.queue).2 ++
      (Sealer.trySched srt (s.pass table ok arrange) s.queue).1).Perm s.queue :=
    (trySched_perm_iff _ ⟨s.queue, h.sorted, h.queue_nodup⟩).mpr huntied srt
  have hperm := hpass.count_eq r
  have hlen := length_trySched (p := s.pass table ok arrange) srt s.queue
  have hs := h.places r
  have hcount := count_unsent (r := r) s.openWindows _ hlen
  rw [count_append] at hperm
  unfold Sched.places at hs ⊢
  rw [hunsent] at hs
  dsimp only [Sched.trySched, Sched.unsent] at hcount ⊢
  rw [map_nil, count_todos_nil] at hs
  omega

omit [Float64 F] in
theorem places_send {window : SchedWindow F} (hw : w.phase ≠ .gone) :
    (w.send window).places.count r = w.places.count r + window.todo.count r := by
  have hsend : (w.send window).phase ≠ .gone := hw
  rw [count_places_running hw, count_places_running hsend]
  dsimp only [SchedWorker.send, held]
  rw [count_todos_append, count_todos_cons, count_todos_nil]
  omega

omit [Float64 F] in
/-- A window is sent to a worker that is there and has room for it. -/
theorem Kept.deliver (h : Kept s) {window : SchedWindow F}
    {rest : List (WorkerID × SchedWindow F)} (hphase : s.phase = .deliver ((wid, window) :: rest))
    (hroom : ∀ w ∈ s.workers.get? wid, w.scheduledWindows.length < schedWindows) :
    Kept ((s.sendWindow wid window).setPhase (.deliver rest)) := by
  have hunsent : s.unsent = (wid, window) :: rest := by rw [Sched.unsent, hphase]
  obtain ⟨w, hw, hgone⟩ : Present s wid := h.unsent (wid, window) (by
    rw [hunsent]
    exact mem_cons_self)
  have hsend : s.sendWindow wid window = s.setWorker wid (w.send window) := by
    unfold Sched.sendWindow
    rw [hw]
    exact if_pos (hroom w hw)
  rw [hsend]
  refine ⟨fun r => ?_, h.nodup, h.sorted, fun e he => ?_⟩
  · have hset := places_setWorker hw (w.send window) r
    have hs := h.places r
    rw [places_send hgone] at hset
    unfold Sched.places at hset hs ⊢
    rw [hunsent] at hs
    have hunsent' : (s.setWorker wid (w.send window)).unsent = (wid, window) :: rest := hunsent
    rw [hunsent', hunsent] at hset
    rw [map_cons, count_todos_cons] at hset hs
    dsimp only [Sched.setPhase, Sched.setWorker, Sched.unsent] at hset hs ⊢
    omega
  · have hpresent := h.unsent e (by
      rw [hunsent]
      exact mem_cons_of_mem _ he)
    exact present_setWorker hw (by exact fun hne => hne) hpresent

/-! ### Steps -/

theorem kept_step {e : SchedEvent F} (h : Kept s) (hpass : PassesOn table s e)
    (hstep : SchedStepped srt table s e s') : Kept s' := by
  cases hstep with
  | add wid info _ hnone =>
    have hnew : ∀ r, (newSchedWorker info).places.count r = 0 := fun r => rfl
    refine ⟨fun r => ?_, h.nodup, h.sorted, fun e he => ?_⟩
    · have htotal : (s.workers.insert wid (newSchedWorker info)).total
          (fun w => w.places.count r) = _ :=
        Table.total_insert_of_none (fun w => w.places.count r) hnone
      rw [hnew r, zero_add] at htotal
      refine Eq.trans ?_ (h.places r)
      unfold places
      dsimp only [setWorker, unsent]
      rw [htotal]
    · obtain ⟨w, hw, hgone⟩ := h.unsent e he
      refine ⟨w, ?_, hgone⟩
      dsimp only [setWorker]
      rw [Table.get?_insert, if_neg]
      · exact hw
      · rintro rfl
        rw [hnone] at hw
        cases hw
  | present wid info => exact h
  | begin m t hphase haccept hgo | gather m t toDisable hphase haccept =>
    obtain ⟨ht, hunsent⟩ := h.accepted haccept (by rw [unsent, hphase])
    exact ht.setPhase hunsent rfl
  | pass m t hphase haccept _ =>
    exact (h.accepted haccept (by rw [unsent, hphase])).1
  | endGather toDisable hphase =>
    obtain ⟨hall, hunsent⟩ := foldlRecOn (motive := fun t => Kept t ∧ t.unsent = [])
      toDisable (disableWorker srt) ⟨h, by rw [unsent, hphase]⟩
      fun _ ht _ _ => ht.1.disableWorker ht.2
    exact hall.setPhase hunsent rfl
  | assign ok arrange hphase => exact h.trySched (by rw [unsent, hphase]) hpass
  | deliver wid window rest hphase =>
    refine h.deliver hphase ?_
    have hhead : (wid, window) ∈ s.unsent.head? := by
      rw [unsent, hphase]
      rfl
    exact hpass (wid, window) hhead
  | delivered hphase => exact h.setPhase (by rw [unsent, hphase]) rfl
  | request wid w hw _ =>
    refine ⟨fun r => ?_, h.nodup, h.sorted, fun e he => ?_⟩
    · exact (places_setWorker_same hw (by rfl)).trans (h.places r)
    · exact present_setWorker hw (by exact fun hne => hne) (h.unsent e he)
  | worker wid e w w' answered hw hstepped =>
    refine h.setWorker hw (fun hne => ?_) (places_stepped hstepped)
    rcases phase_stepped hstepped with hphase | hrun
    · rw [hphase]
      exact hne
    · exact hrun.2.1
  | remove wid w hw hphase hlocked =>
    have hgone := (running_of_eq hphase).1
    have hempty : w.scheduledWindows = [] := length_eq_zero_iff.mp (hpass w hw)
    have hunsent := unsent_of_unlocked hlocked
    refine ⟨fun r => ?_, h.nodup, h.sorted, ?_⟩
    · refine (places_setWorker_same hw ?_).trans (h.places r)
      rw [count_places_running hgone, hempty, count_places]
      exact congrArg (· + held w r) (if_pos rfl)
    · show ∀ e ∈ s.unsent, _
      rw [hunsent]
      exact forall_mem_nil _

end HandoverLemmas

open HandoverLemmas SchedLemmas in
/-- For every interleaving: in a run whose steps pass the requests on, every request that was
submitted is in one place in every state. -/
theorem requests_kept {F : Type} [Float64 F] (srt : QueueSort) (table : ResourceTable F)
    {events : List (SchedEvent F)} {states : List (Sched F)}
    (hrun : trace (Sched.step srt table) (newSched F) events = some states)
    (hpass : Guarded (Sched.step srt table) (PassesOn table) (newSched F) events) :
    ∀ s ∈ states, ∀ r ∈ s.submitted, s.places r = 1 := by
  have hstart : Kept (newSched F) := ⟨fun _ => rfl, nodup_nil, .nil, forall_mem_nil _⟩
  have hall := trace_forall_guarded
    (fun s e s' (h : Kept s) hpass hstep => kept_step h hpass (schedStepped_of_step hstep))
    hstart hrun hpass
  intro s hs r hr
  rw [(hall s hs).places r]
  exact count_eq_one_of_mem (hall s hs).nodup hr

/-- Every worker is acceptable for a request. -/
def allOk : WorkerRequest → WorkerID → Option (Bool × Bool) := fun _ _ => some (true, false)

/-- A worker has opened its windows, and a request is sent to it. -/
def sendRequest (info : WorkerInfo ℚ) : List (SchedEvent ℚ) :=
  [.receive .initWait] ++ restOfIteration noneOk ++ startWorker 0 info ++
    [.receive .window, .receive .window] ++ restOfIteration noneOk ++
    [.receive (.schedule (pieceRequest 0))] ++ restOfIteration allOk ++ [.deliver]

/-- The worker takes the window, and prepares and finishes the task. -/
def workOnRequest : List (SchedEvent ℚ) :=
  [.worker 0 (.session .same), .worker 0 .window, .worker 0 .compact, .worker 0 .assignReady,
    .worker 0 .check, .worker 0 .start, .worker 0 .check, .worker 0 .check,
    .worker 0 (.prepared 0), .worker 0 (.respond 0), .worker 0 (.finish 0)]

theorem requests_kept_worked :
    ∃ states, trace (Sched.step stableQueue fun _ => none) (newSched ℚ)
        (sendRequest idleWorker.info ++ workOnRequest) = some states ∧
      ∀ s ∈ states, ∀ r ∈ s.submitted, s.places r = 1 :=
  exists_trace_of (by decide +kernel) fun _ hrun =>
    requests_kept stableQueue _ hrun (by decide +kernel)

/-- The worker has restarted when the window is in its channel. -/
def restartWorker : List (SchedEvent ℚ) :=
  [.worker 0 (.session .changed), .receive (.disable 0)] ++ restOfIteration noneOk ++ [.remove 0]

/-- The request is submitted, and is nowhere. -/
theorem restart_loses_request :
    ∃ states, trace (Sched.step stableQueue fun _ => none) (newSched ℚ)
        (sendRequest idleWorker.info ++ restartWorker) = some states ∧
      ∃ s ∈ states, pieceRequest 0 ∈ s.submitted ∧ s.places (pieceRequest 0) = 0 := by
  refine exists_trace ?_
  decide +kernel

end OpenDsn.Sealer
