import OpenDsn.Lib.Run
import OpenDsn.Sealer.Worker

/-!
# The scheduler and its workers

`storage/sealer/sched.go`, with the goroutines of the workers. The loop of the scheduler receives
a message, and then all that are there; it disables the workers that asked for it, which puts the
requests of their windows back in the queue; it assigns requests to the open windows and sends
these to the workers. It does none of this before `InitWait` has passed.

A step of the system is one of the loop, of a goroutine of a worker, or of a task:

* `Sched.step`: the steps;
* `disables_acknowledged_iff`: every request to disable a worker is answered in the iteration in
  which it is received, and the requests of its windows are then in the queue, exactly when none
  is received before the scheduler is initialised.
-/

namespace OpenDsn.Sealer

open Lib List Option

/-- The size of the channel of window requests. -/
def windowRequestsCap : Nat := 20

/-- Where the loop of the scheduler is. -/
inductive SchedPhase (F : Type)
  | idle
  /-- More messages are received. -/
  | gather (toDisable : List WorkerID)
  | assign
  /-- The windows that are left to be sent. -/
  | deliver (windows : List (WorkerID × SchedWindow F))

/-- A request to disable a worker that was answered: the requests of its windows, and the queue
at the call of `done`. -/
structure Ack where
  worker : WorkerID
  requests : List WorkerRequest
  queue : List WorkerRequest

structure Sched (F : Type) where
  workers : Table WorkerID (SchedWorker F)
  /-- The channel of window requests. -/
  windowRequests : List WorkerID
  queue : List WorkerRequest
  openWindows : List WorkerID
  initialised : Bool
  phase : SchedPhase F
  /-- The requests that were scheduled. -/
  submitted : List WorkerRequest
  /-- Those that are answered or removed. -/
  settled : List WorkerRequest
  /-- The workers whose requests to be disabled were received. -/
  received : List WorkerID
  acked : List Ack

def newSched (F : Type) : Sched F := ⟨∅, [], [], [], false, .idle, [], [], [], []⟩

/-- What the loop receives. -/
inductive Received
  | rm (id : Nat)
  | change
  | disable (wid : WorkerID)
  | schedule (r : WorkerRequest)
  | window
  | info
  | initWait

def Received.doSched : Received → Bool
  | .info => false
  | _ => true

/-- The inner loop receives these only. -/
def Received.gathered : Received → Bool
  | .change | .disable _ | .schedule _ | .window => true
  | _ => false

def Received.toDisable : Received → List WorkerID
  | .disable wid => [wid]
  | _ => []

inductive SchedEvent (F : Type)
  /-- `runWorker`. -/
  | add (wid : WorkerID) (info : WorkerInfo F)
  | receive (message : Received)
  /-- No more messages are there. The workers are disabled. -/
  | endGather
  /-- `trySched`, with the answers of the selectors and the order of the acceptable windows. -/
  | assign (ok : WorkerRequest → WorkerID → Option (Bool × Bool))
      (arrange : WorkerRequest → Arrangement)
  /-- A window is sent. -/
  | deliver
  /-- A worker asks for a window. -/
  | request (wid : WorkerID)
  | worker (wid : WorkerID) (e : WorkerEvent)
  /-- A worker whose session has ended is deleted. -/
  | remove (wid : WorkerID)

namespace Sched

variable {F : Type} [Float64 F] (srt : QueueSort) (table : ResourceTable F) (s : Sched F)

def setWorker (wid : WorkerID) (w : SchedWorker F) : Sched F :=
  { s with workers := s.workers.insert wid w }

def setPhase (phase : SchedPhase F) : Sched F := { s with phase := phase }

/-- `workersLk` is taken for reading while requests are assigned and windows are sent. -/
def locked : Bool :=
  match s.phase with
  | .deliver _ => true
  | _ => false

/-- The cases of `select`. `none` for a message that is not there. -/
def accept : Received → Option (Sched F)
  | .rm id =>
      match s.queue.findIdx? (fun r => r.schedId = id) with
      | none => some s
      | some i =>
          match s.queue[i]? with
          | none => some s
          | some r => some { s with queue := srt.remove s.queue i, settled := s.settled ++ [r] }
  | .change => some s
  | .disable wid =>
      match s.workers.get? wid with
      | none => none
      | some w =>
          match w.phase with
          | .disabling next => some { s.setWorker wid (w.goto (.awaiting next)) with
              received := s.received ++ [wid] }
          | _ => none
  | .schedule r =>
      if r ∈ s.submitted then none
      else some { s with queue := push srt s.queue r, submitted := s.submitted ++ [r] }
  | .window =>
      match s.windowRequests with
      | [] => none
      | wid :: rest => some { s with
          windowRequests := rest
          openWindows := s.openWindows ++ [wid] }
  | .info => some s
  | .initWait => if s.initialised then none else some { s with initialised := true }

/-- The queue with the requests of the windows pushed. -/
def requeue (queue : List WorkerRequest) (windows : List (SchedWindow F)) : List WorkerRequest :=
  windows.foldl (fun queue window => window.todo.foldl (push srt) queue) queue

/-- A request to disable a worker, up to the call of `done`. -/
def disableWorker (wid : WorkerID) : Sched F :=
  match s.workers.get? wid with
  | none => s
  | some w =>
      match w.phase with
      | .awaiting next =>
          let queue := requeue srt s.queue w.activeWindows
          { s.setWorker wid (w.disabled next) with
            queue := queue
            openWindows := s.openWindows.filter (· ≠ wid)
            acked := s.acked ++ [⟨wid, todos w.activeWindows, queue⟩] }
      | _ => s

/-- What `TrySched` reads. A worker that is gone is not in the map. -/
def pass (ok : WorkerRequest → WorkerID → Option (Bool × Bool))
    (arrange : WorkerRequest → Arrangement) : Pass F where
  openWindows := s.openWindows
  workers := fun wid =>
    match s.workers.get? wid with
    | none => none
    | some w => if w.phase = .gone then none else some w.handle
  table := table
  ok := ok
  arrange := arrange

/-- `TrySched`, up to the sending of the windows. A window without requests stays open. -/
def trySched (p : Pass F) : Sched F :=
  let out := Sealer.trySched srt p s.queue
  let windows := s.openWindows.zip out.2
  { s with
    queue := out.1
    openWindows := (windows.filter fun e => e.2.todo.length = 0).map Prod.fst
    phase := .deliver (windows.filter fun e => e.2.todo.length ≠ 0) }

/-- A window is sent, if there is room in the channel; else it is dropped. -/
def sendWindow (wid : WorkerID) (window : SchedWindow F) : Sched F :=
  match s.workers.get? wid with
  | none => s
  | some w =>
      if w.scheduledWindows.length < schedWindows then
        s.setWorker wid (w.send window)
      else s

/-- `none` for a step that cannot be made. -/
def step : SchedEvent F → Option (Sched F)
  | .add wid info =>
      if s.locked then none
      else
        match s.workers.get? wid with
        | none => some (s.setWorker wid (newSchedWorker info))
        -- the worker is already handled; a session that has ended does not come back
        | some w => if w.phase = .gone then none else some s
  | .receive m =>
      match s.phase with
      | .idle =>
          match s.accept srt m with
          | none => none
          | some s =>
              if m.doSched && s.initialised then some (s.setPhase (.gather m.toDisable)) else some s
      | .gather toDisable =>
          if m.gathered then
            match s.accept srt m with
            | none => none
            | some s => some (s.setPhase (.gather (toDisable ++ m.toDisable)))
          else none
      | _ => none
  | .endGather =>
      match s.phase with
      | .gather toDisable => some ((toDisable.foldl (disableWorker srt) s).setPhase .assign)
      | _ => none
  | .assign ok arrange =>
      match s.phase with
      | .assign => some (s.trySched srt (s.pass table ok arrange))
      | _ => none
  | .deliver =>
      match s.phase with
      | .deliver [] => some (s.setPhase .idle)
      | .deliver ((wid, window) :: rest) =>
          some ((s.sendWindow wid window).setPhase (.deliver rest))
      | _ => none
  | .request wid =>
      match s.workers.get? wid with
      | none => none
      | some w =>
          if w.phase = .requestWindows ∧ w.windowsRequested < schedWindows ∧
              s.windowRequests.length < windowRequestsCap then
            some { s.setWorker wid { w with windowsRequested := w.windowsRequested + 1 } with
              windowRequests := s.windowRequests ++ [wid] }
          else none
  | .worker wid e =>
      match s.workers.get? wid with
      | none => none
      | some w =>
          if e.locks && s.locked then none
          else
            match w.step table e with
            | none => none
            | some (w, answered) =>
                some { s.setWorker wid w with settled := s.settled ++ answered }
  | .remove wid =>
      match s.workers.get? wid with
      | none => none
      | some w =>
          if w.phase = .removing ∧ s.locked = false then some (s.setWorker wid (w.goto .gone))
          else none

/-- The goroutine of the worker waits for its request to be answered. -/
def Awaits (wid : WorkerID) : Prop :=
  ∃ w next, s.workers.get? wid = some w ∧ w.phase = .awaiting next

/-- A step of the loop that takes no message. -/
def Loops (s t : Sched F) : Prop :=
  s.step srt table .endGather = some t ∨
    (∃ ok arrange, s.step srt table (.assign ok arrange) = some t) ∨
    s.step srt table .deliver = some t

/-- Every request to disable a worker that was received is answered when the iteration ends, no
worker then waits, and the requests of its windows were in the queue. -/
structure Acknowledged : Prop where
  answered : s.phase = .idle → s.acked.map Ack.worker = s.received ∧ ∀ wid, ¬s.Awaits wid
  requeued : ∀ a ∈ s.acked, a.requests ⊆ a.queue
  ends : ∃ t, Relation.ReflTransGen (Loops srt table) s t ∧ t.phase = .idle

end Sched

/-- No request to disable a worker is received before the scheduler is initialised. -/
def DisablesInitialised {F : Type} (s : Sched F) : SchedEvent F → Prop
  | .receive (.disable _) => s.initialised = true
  | _ => True

instance {F : Type} (s : Sched F) : ∀ e, Decidable (DisablesInitialised s e)
  | .receive (.disable _) => inferInstanceAs (Decidable (s.initialised = true))
  | .receive (.rm _) | .receive .change | .receive (.schedule _) | .receive .window
  | .receive .info | .receive .initWait | .add .. | .endGather | .assign .. | .deliver
  | .request _ | .worker .. | .remove _ => isTrue trivial

namespace SchedLemmas

open WorkerLemmas Sched

variable {F : Type} {srt : QueueSort} {table : ResourceTable F} {s s' : Sched F} {e : SchedEvent F}
  {m : Received}

/-! ### What a step does -/

/-- What a message does. -/
inductive Accepted (srt : QueueSort) (s : Sched F) : Received → Sched F → Prop
  | keep (m : Received) : m.toDisable = [] → Accepted srt s m s
  | rm (id i : Nat) (r : WorkerRequest) : s.queue[i]? = some r → Accepted srt s (.rm id)
      { s with queue := srt.remove s.queue i, settled := s.settled ++ [r] }
  | disable (wid : WorkerID) (w : SchedWorker F) (next : AfterDisable) :
      s.workers.get? wid = some w → w.phase = .disabling next → Accepted srt s (.disable wid)
        { s.setWorker wid (w.goto (.awaiting next)) with received := s.received ++ [wid] }
  | schedule (r : WorkerRequest) : r ∉ s.submitted → Accepted srt s (.schedule r)
      { s with queue := push srt s.queue r, submitted := s.submitted ++ [r] }
  | window (wid : WorkerID) (rest : List WorkerID) : s.windowRequests = wid :: rest →
      Accepted srt s .window
        { s with windowRequests := rest, openWindows := s.openWindows ++ [wid] }
  | initWait : Accepted srt s .initWait { s with initialised := true }

theorem accepted_of_accept (h : s.accept srt m = some s') : Accepted srt s m s' := by
  cases m with
  | rm id =>
    simp only [accept] at h
    split at h
    · cases h; exact .keep _ rfl
    · split at h
      · cases h; exact .keep _ rfl
      · next r hr => cases h; exact .rm id _ r hr
  | change | info => cases h; exact .keep _ rfl
  | disable wid =>
    simp only [accept] at h
    split at h
    · cases h
    next w hw =>
    split at h
    · next next hphase => cases h; exact .disable wid w next hw hphase
    · cases h
  | schedule r =>
    simp only [accept] at h
    split at h
    · cases h
    · next hr => cases h; exact .schedule r hr
  | window =>
    simp only [accept] at h
    split at h
    · cases h
    · next wid rest hrequests => cases h; exact .window wid rest hrequests
  | initWait =>
    simp only [accept] at h
    split at h
    · cases h
    · cases h; exact .initWait

section Steps

variable [Float64 F]

/-- What a step does to the system. -/
inductive SchedStepped (srt : QueueSort) (table : ResourceTable F) (s : Sched F) :
    SchedEvent F → Sched F → Prop
  | add (wid : WorkerID) (info : WorkerInfo F) : s.locked = false → s.workers.get? wid = none →
      SchedStepped srt table s (.add wid info) (s.setWorker wid (newSchedWorker info))
  | present (wid : WorkerID) (info : WorkerInfo F) : SchedStepped srt table s (.add wid info) s
  | begin (m : Received) (t : Sched F) : s.phase = .idle → Accepted srt s m t →
      t.initialised = true →
      SchedStepped srt table s (.receive m) (t.setPhase (.gather m.toDisable))
  /-- A message for which nothing more is done. -/
  | pass (m : Received) (t : Sched F) : s.phase = .idle → Accepted srt s m t →
      m.doSched = false ∨ t.initialised = false → SchedStepped srt table s (.receive m) t
  | gather (m : Received) (t : Sched F) (toDisable : List WorkerID) :
      s.phase = .gather toDisable → Accepted srt s m t →
      SchedStepped srt table s (.receive m) (t.setPhase (.gather (toDisable ++ m.toDisable)))
  | endGather (toDisable : List WorkerID) : s.phase = .gather toDisable →
      SchedStepped srt table s .endGather
        ((toDisable.foldl (Sched.disableWorker srt) s).setPhase .assign)
  | assign (ok : WorkerRequest → WorkerID → Option (Bool × Bool))
      (arrange : WorkerRequest → Arrangement) : s.phase = .assign →
      SchedStepped srt table s (.assign ok arrange) (s.trySched srt (s.pass table ok arrange))
  | deliver (wid : WorkerID) (window : SchedWindow F) (rest : List (WorkerID × SchedWindow F)) :
      s.phase = .deliver ((wid, window) :: rest) →
      SchedStepped srt table s .deliver ((s.sendWindow wid window).setPhase (.deliver rest))
  | delivered : s.phase = .deliver [] → SchedStepped srt table s .deliver (s.setPhase .idle)
  | request (wid : WorkerID) (w : SchedWorker F) : s.workers.get? wid = some w →
      w.phase = .requestWindows → SchedStepped srt table s (.request wid)
        { s.setWorker wid { w with windowsRequested := w.windowsRequested + 1 } with
          windowRequests := s.windowRequests ++ [wid] }
  | worker (wid : WorkerID) (e : WorkerEvent) (w w' : SchedWorker F)
      (answered : List WorkerRequest) : s.workers.get? wid = some w → Stepped table w w' answered →
      SchedStepped srt table s (.worker wid e)
        { s.setWorker wid w' with settled := s.settled ++ answered }
  | remove (wid : WorkerID) (w : SchedWorker F) : s.workers.get? wid = some w →
      w.phase = .removing → s.locked = false →
      SchedStepped srt table s (.remove wid) (s.setWorker wid (w.goto .gone))

theorem schedStepped_of_step (h : s.step srt table e = some s') :
    SchedStepped srt table s e s' := by
  cases e with
  | add wid info =>
    simp only [step] at h
    split at h
    · cases h
    next hlocked =>
    split at h
    · next hnone => cases h; exact .add wid info (Bool.eq_false_of_not_eq_true hlocked) hnone
    · split at h
      · cases h
      · cases h; exact .present wid info
  | receive m =>
    simp only [step] at h
    split at h
    · next hphase =>
      split at h
      · cases h
      next t ht =>
      split at h
      · next hgo =>
        cases h
        exact .begin m t hphase (accepted_of_accept ht) (Bool.and_eq_true_iff.mp hgo).2
      · next hgo =>
        cases h
        refine .pass m _ hphase (accepted_of_accept ht) ?_
        exact Bool.and_eq_false_iff.mp (Bool.eq_false_of_not_eq_true hgo)
    · next toDisable hphase =>
      split at h
      · split at h
        · cases h
        · next t ht => cases h; exact .gather m t toDisable hphase (accepted_of_accept ht)
      · cases h
    · cases h
  | endGather =>
    simp only [step] at h
    split at h
    · next toDisable hphase => cases h; exact .endGather toDisable hphase
    · cases h
  | assign ok arrange =>
    simp only [step] at h
    split at h
    · next hphase => cases h; exact .assign ok arrange hphase
    · cases h
  | deliver =>
    simp only [step] at h
    split at h
    · next hphase => cases h; exact .delivered hphase
    · next wid window rest hphase => cases h; exact .deliver wid window rest hphase
    · cases h
  | request wid =>
    simp only [step] at h
    split at h
    · cases h
    next w hw =>
    split at h
    · next hrequest => cases h; exact .request wid w hw hrequest.1
    · cases h
  | worker wid e =>
    simp only [step] at h
    split at h
    · cases h
    next w hw =>
    split at h
    · cases h
    split at h
    · cases h
    next w' answered hstep =>
    cases h
    exact .worker wid e w w' answered hw (stepped_of_step hstep)
  | remove wid =>
    simp only [step] at h
    split at h
    · cases h
    next w hw =>
    split at h
    · next hremove => cases h; exact .remove wid w hw hremove.1 hremove.2
    · cases h

end Steps

/-- A request to disable a worker is answered if the worker waits for it. -/
theorem disableWorker_cases (srt : QueueSort) (s : Sched F) (wid : WorkerID) :
    s.disableWorker srt wid = s ∨
    ∃ w next, s.workers.get? wid = some w ∧ w.phase = .awaiting next ∧
      s.disableWorker srt wid = { s.setWorker wid (w.disabled next) with
        queue := Sched.requeue srt s.queue w.activeWindows
        openWindows := s.openWindows.filter (· ≠ wid)
        acked := s.acked ++ [⟨wid, todos w.activeWindows,
          Sched.requeue srt s.queue w.activeWindows⟩] } := by
  unfold disableWorker
  split
  · exact .inl rfl
  · next w hw =>
    split
    · next next hphase => exact .inr ⟨w, next, hw, hphase, rfl⟩
    · exact .inl rfl

/-- A window is put in the channel of its worker, or it is dropped. -/
theorem sendWindow_cases (s : Sched F) (wid : WorkerID) (window : SchedWindow F) :
    s.sendWindow wid window = s ∨
    ∃ w, s.workers.get? wid = some w ∧
      s.sendWindow wid window = s.setWorker wid (w.send window) := by
  unfold sendWindow
  split
  · exact .inl rfl
  · next w hw =>
    split
    · exact .inr ⟨w, hw, rfl⟩
    · exact .inl rfl

/-! ### Requests to disable a worker -/

section Disables

/-- The requests of the workers in `pending` are received and not answered. -/
structure Logged (s : Sched F) (pending : List WorkerID) : Prop where
  log : s.received = s.acked.map Ack.worker ++ pending
  awaits : ∀ wid, s.Awaits wid ↔ wid ∈ pending
  nodup : pending.Nodup
  requeued : ∀ a ∈ s.acked, a.requests ⊆ a.queue

variable {pending : List WorkerID} {wid : WorkerID} {w w' : SchedWorker F}

theorem awaits_setWorker (wid' : WorkerID) :
    (s.setWorker wid w').Awaits wid' ↔
      if wid' = wid then ∃ next, w'.phase = .awaiting next else s.Awaits wid' := by
  unfold Sched.Awaits setWorker
  rw [Table.get?_insert]
  split
  · constructor
    · rintro ⟨x, next, hx, hphase⟩
      obtain rfl := some.inj hx
      exact ⟨next, hphase⟩
    · rintro ⟨next, hphase⟩
      exact ⟨w', next, rfl, hphase⟩
  · rfl

/-- A worker that waits goes on waiting, and no other one begins to. -/
theorem awaits_setWorker_same (hw : s.workers.get? wid = some w)
    (hphase : w'.phase = w.phase ∨ Running w.phase ∧ ∀ next, w'.phase ≠ .awaiting next)
    (wid' : WorkerID) : (s.setWorker wid w').Awaits wid' ↔ s.Awaits wid' := by
  rw [awaits_setWorker]
  split
  · next hwid =>
    subst hwid
    have hawaits : s.Awaits wid' ↔ ∃ next, w.phase = .awaiting next := by
      unfold Sched.Awaits
      rw [hw]
      exact ⟨fun ⟨x, next, hx, hphase⟩ => ⟨next, some.inj hx ▸ hphase⟩,
        fun ⟨next, hphase⟩ => ⟨w, next, rfl, hphase⟩⟩
    rw [hawaits]
    rcases hphase with hphase | ⟨hrun, hphase⟩
    · rw [hphase]
    · exact iff_of_false (fun ⟨next, h⟩ => hphase next h) fun ⟨next, h⟩ => hrun.2 next h
  · rfl

theorem Logged.congr (h : Logged s pending) (hreceived : s'.received = s.received)
    (hacked : s'.acked = s.acked) (hawaits : ∀ wid, s'.Awaits wid ↔ s.Awaits wid) :
    Logged s' pending := by
  refine ⟨?_, fun wid => (hawaits wid).trans (h.awaits wid), h.nodup, ?_⟩
  · rw [hreceived, hacked]
    exact h.log
  · rw [hacked]
    exact h.requeued

theorem Logged.setPhase (h : Logged s pending) (phase : SchedPhase F) :
    Logged (s.setPhase phase) pending := h.congr rfl rfl fun _ => Iff.rfl

theorem Logged.accepted (h : Logged s pending) (haccept : Accepted srt s m s') :
    Logged s' (pending ++ m.toDisable) := by
  cases haccept with
  | keep m hm =>
    rw [hm, append_nil]
    exact h
  | disable wid w next hw hphase =>
    have hnot : wid ∉ pending := by
      intro hmem
      obtain ⟨x, next', hx, hawaiting⟩ := (h.awaits wid).mpr hmem
      obtain rfl := mem_unique hw hx
      rw [hphase] at hawaiting
      cases hawaiting
    refine ⟨?_, fun wid' => ?_, ?_, h.requeued⟩
    · rw [h.log, append_assoc]
      rfl
    · show (s.setWorker wid (w.goto (.awaiting next))).Awaits wid' ↔ _
      rw [awaits_setWorker, mem_append, ← h.awaits wid']
      split
      · next hwid => exact iff_of_true ⟨next, rfl⟩ (.inr (mem_singleton.mpr hwid))
      · next hwid =>
        exact ⟨.inl, fun hor => hor.resolve_right fun hin => hwid (mem_singleton.mp hin)⟩
    · exact nodup_append.mpr ⟨h.nodup, nodup_singleton _, fun a ha b hb hab =>
        hnot (mem_singleton.mp hb ▸ hab ▸ ha)⟩
  | rm | schedule | window | initWait =>
    dsimp only [Received.toDisable]
    rw [append_nil]
    exact h.congr rfl rfl fun _ => Iff.rfl

/-- The requests of the windows are in the queue after it, beside what was there. -/
theorem perm_requeue (srt : QueueSort) (queue : List WorkerRequest)
    (windows : List (SchedWindow F)) :
    (Sched.requeue srt queue windows).Perm (queue ++ todos windows) := by
  have hpush : ∀ (todo queue : List WorkerRequest),
      (todo.foldl (push srt) queue).Perm (queue ++ todo) := by
    intro todo
    induction todo with
    | nil => intro queue; rw [append_nil]; rfl
    | cons r todo ih =>
      intro queue
      refine (ih _).trans ?_
      have hsort := (srt.perm (queue ++ [r])).append_right todo
      rwa [append_assoc, singleton_append] at hsort
  induction windows generalizing queue with
  | nil => rw [todos, flatMap_nil, append_nil]; rfl
  | cons window windows ih =>
    refine (ih _).trans ?_
    have hwindow := (hpush window.todo queue).append_right (todos windows)
    rw [append_assoc] at hwindow
    exact hwindow

theorem Logged.disableWorker (h : Logged s (wid :: pending)) :
    Logged (s.disableWorker srt wid) pending := by
  obtain ⟨w, next, hw, hphase⟩ := (h.awaits wid).mpr mem_cons_self
  obtain ⟨hnot, hnodup⟩ := nodup_cons.mp h.nodup
  unfold Sched.disableWorker
  rw [hw]
  dsimp only
  rw [hphase]
  refine ⟨?_, fun wid' => ?_, hnodup, ?_⟩
  · dsimp only [Sched.setWorker]
    rw [h.log, map_append, append_assoc]
    rfl
  · show (s.setWorker wid (w.disabled next)).Awaits wid' ↔ _
    rw [awaits_setWorker]
    split
    · next hwid =>
      subst hwid
      refine iff_of_false (fun ⟨next', h'⟩ => ?_) hnot
      cases next <;> cases h'
    · next hwid => rw [h.awaits wid', mem_cons, or_iff_right hwid]
  · refine forall_mem_snoc h.requeued fun r hr => ?_
    exact (perm_requeue srt s.queue w.activeWindows).symm.subset (mem_append_right _ hr)

theorem Logged.disableAll (h : Logged s pending) :
    Logged (pending.foldl (Sched.disableWorker srt) s) [] := by
  induction pending generalizing s with
  | nil => exact h
  | cons wid pending ih => exact ih h.disableWorker

/-- The requests that are received in the iteration and not answered. -/
def pendingDisables (s : Sched F) : List WorkerID :=
  match s.phase with
  | .gather toDisable => toDisable
  | _ => []

theorem phase_accepted (h : Accepted srt s m s') : s'.phase = s.phase := by
  cases h <;> rfl

theorem Logged.setWorker (h : Logged s pending) (hw : s.workers.get? wid = some w)
    (hphase : w'.phase = w.phase ∨ Running w.phase ∧ ∀ next, w'.phase ≠ .awaiting next) :
    Logged (s.setWorker wid w') pending :=
  h.congr rfl rfl (awaits_setWorker_same hw hphase)

theorem Logged.sendWindow (h : Logged s pending) (window : SchedWindow F) :
    Logged (s.sendWindow wid window) pending := by
  rcases sendWindow_cases s wid window with heq | ⟨w, hw, heq⟩
  · rw [heq]
    exact h
  · rw [heq]
    exact h.setWorker hw (.inl rfl)

/-- A message that is dropped is not a request to disable a worker. -/
theorem toDisable_of_pass (hinit : DisablesInitialised s (.receive m))
    (haccept : Accepted srt s m s') (hpass : m.doSched = false ∨ s'.initialised = false) :
    m.toDisable = [] := by
  cases haccept with
  | disable wid w next _ _ =>
    rcases hpass with hpass | hpass
    · cases hpass
    · exact absurd (hinit.symm.trans hpass) Bool.false_ne_true.symm
  | keep m hm => exact hm
  | rm | schedule | window | initWait => rfl

variable [Float64 F]

theorem logged_step (h : Logged s (pendingDisables s))
    (hinit : DisablesInitialised s e) (hstep : SchedStepped srt table s e s') :
    Logged s' (pendingDisables s') := by
  cases hstep with
  | add wid info _ hnone =>
    refine h.congr rfl rfl fun wid' => ?_
    rw [awaits_setWorker]
    split
    · next hwid =>
      subst hwid
      refine iff_of_false (fun ⟨next, hphase⟩ => nomatch hphase) fun ⟨w, next, hw, _⟩ => ?_
      rw [hnone] at hw
      cases hw
    · rfl
  | present wid info => exact h
  | begin m t hphase haccept hgo | gather m t toDisable hphase haccept =>
    rw [pendingDisables, hphase] at h
    exact (h.accepted haccept).setPhase _
  | pass m t hphase haccept hpass =>
    rw [pendingDisables, hphase] at h
    have hlogged := h.accepted haccept
    rw [toDisable_of_pass hinit haccept hpass] at hlogged
    rw [pendingDisables, phase_accepted haccept, hphase]
    exact hlogged
  | endGather toDisable hphase =>
    rw [pendingDisables, hphase] at h
    exact h.disableAll.setPhase _
  | assign ok arrange hphase =>
    rw [pendingDisables, hphase] at h
    exact h.congr rfl rfl fun _ => Iff.rfl
  | deliver wid window rest hphase =>
    rw [pendingDisables, hphase] at h
    exact (h.sendWindow window).setPhase _
  | delivered hphase =>
    rw [pendingDisables, hphase] at h
    exact h.setPhase _
  | request wid w hw _ =>
    refine (h.setWorker hw ?_).congr rfl rfl fun _ => Iff.rfl
    exact .inl rfl
  | worker wid e w w' answered hw hstepped =>
    refine (h.setWorker hw ?_).congr rfl rfl fun _ => Iff.rfl
    exact (phase_stepped hstepped).imp_right fun hrun => ⟨hrun.1, hrun.2.2⟩
  | remove wid w hw hphase _ =>
    exact h.setWorker hw (.inr ⟨running_of_eq hphase, nofun⟩)

/-! ### The end of an iteration -/

variable (srt table)

/-- The windows that are left are sent one after another. -/
theorem deliver_ends (windows : List (WorkerID × SchedWindow F))
    (hphase : s.phase = .deliver windows) :
    ∃ t, Relation.ReflTransGen (Sched.Loops srt table) s t ∧ t.phase = .idle := by
  induction windows generalizing s with
  | nil =>
    refine ⟨s.setPhase .idle, .single (.inr (.inr ?_)), rfl⟩
    simp only [step, hphase]
  | cons window windows ih =>
    obtain ⟨t, hloops, ht⟩ :=
      ih (s := (s.sendWindow window.1 window.2).setPhase (.deliver windows)) rfl
    refine ⟨t, .head (.inr (.inr ?_)) hloops, ht⟩
    simp only [step, hphase]

theorem assign_ends (hphase : s.phase = .assign) :
    ∃ t, Relation.ReflTransGen (Sched.Loops srt table) s t ∧ t.phase = .idle := by
  let ok : WorkerRequest → WorkerID → Option (Bool × Bool) := fun _ _ => none
  let arrange : WorkerRequest → Arrangement := fun _ => .listed
  obtain ⟨t, hloops, ht⟩ := deliver_ends srt table
    (s := s.trySched srt (s.pass table ok arrange)) _ rfl
  refine ⟨t, .head (.inr (.inl ⟨ok, arrange, ?_⟩)) hloops, ht⟩
  simp only [step, hphase]

theorem iteration_ends (s : Sched F) :
    ∃ t, Relation.ReflTransGen (Sched.Loops srt table) s t ∧ t.phase = .idle := by
  cases hphase : s.phase with
  | idle => exact ⟨s, .refl, hphase⟩
  | gather toDisable =>
    obtain ⟨t, hloops, ht⟩ := assign_ends srt table
      (s := (toDisable.foldl (disableWorker srt) s).setPhase .assign) rfl
    refine ⟨t, .head (.inl ?_) hloops, ht⟩
    simp only [step, hphase]
  | assign => exact assign_ends srt table hphase
  | deliver windows => exact deliver_ends srt table windows hphase

variable {srt table}

theorem Logged.acknowledged (h : Logged s (pendingDisables s)) : s.Acknowledged srt table := by
  refine ⟨fun hphase => ?_, h.requeued, iteration_ends srt table s⟩
  rw [pendingDisables, hphase] at h
  refine ⟨?_, fun wid hwid => not_mem_nil ((h.awaits wid).mp hwid)⟩
  rw [h.log, append_nil]

/-- A request that is received too early is not answered when the iteration ends. -/
theorem initialised_of_acknowledged (hstep : SchedStepped srt table s e s')
    (h : s'.Acknowledged srt table) (hgather : ∀ l, s.phase = .gather l → s.initialised = true) :
    DisablesInitialised s e := by
  unfold DisablesInitialised
  split
  · next wid =>
    cases hstep with
    | begin m t _ haccept hgo => cases haccept with
      | disable wid w next _ _ => exact hgo
      | keep m hm => cases hm
    | pass m t hphase haccept _ =>
      cases haccept with
      | disable wid w next _ _ =>
        refine absurd ?_ ((h.answered hphase).2 wid)
        show (s.setWorker wid (w.goto (.awaiting next))).Awaits wid
        rw [awaits_setWorker, if_pos rfl]
        exact ⟨next, rfl⟩
      | keep m hm => cases hm
    | gather m t toDisable hphase _ => exact hgather toDisable hphase
  · exact trivial

/-- Messages are gathered only after the scheduler is initialised. -/
def GathersInitialised (s : Sched F) : Prop := ∀ l, s.phase = .gather l → s.initialised = true

omit [Float64 F] in
theorem initialised_accepted (h : Accepted srt s m s')
    (hinit : s.initialised = true) : s'.initialised = true := by
  cases h with
  | initWait => rfl
  | keep | rm | disable | schedule | window => exact hinit

theorem gathersInitialised_step (h : GathersInitialised s)
    (hstep : SchedStepped srt table s e s') : GathersInitialised s' := by
  cases hstep with
  | begin m t _ _ hgo => exact fun _ _ => hgo
  | pass m t hphase haccept _ =>
    intro l hl
    rw [phase_accepted haccept, hphase] at hl
    cases hl
  | gather m t toDisable hphase haccept =>
    have hinit : t.initialised = true := initialised_accepted haccept (h toDisable hphase)
    exact fun _ _ => hinit
  | endGather | assign | deliver | delivered => nofun
  | add | present | request | worker | remove => exact h

structure DisableInv (s : Sched F) : Prop where
  logged : Logged s (pendingDisables s)
  initialised : GathersInitialised s

end Disables

/-! ### Requests that are dropped -/

section Dropped

variable {wid : WorkerID}

/-- The worker waits for an answer that will not come. -/
def Dropped (wid : WorkerID) (s : Sched F) : Prop := s.Awaits wid ∧ wid ∉ pendingDisables s

theorem awaits_accepted (h : s.Awaits wid) (haccept : Accepted srt s m s') :
    s'.Awaits wid ∧ wid ∉ m.toDisable := by
  cases haccept with
  | disable wid' w next hw hphase =>
    have hne : wid ≠ wid' := by
      rintro rfl
      obtain ⟨x, next', hx, hawaiting⟩ := h
      obtain rfl := mem_unique hw hx
      rw [hphase] at hawaiting
      cases hawaiting
    refine ⟨?_, fun hmem => hne (mem_singleton.mp hmem)⟩
    show (s.setWorker wid' (w.goto (.awaiting next))).Awaits wid
    rw [awaits_setWorker, if_neg hne]
    exact h
  | keep m hm =>
    rw [hm]
    exact ⟨h, not_mem_nil⟩
  | rm | schedule | window | initWait => exact ⟨h, not_mem_nil⟩

theorem awaits_disableAll {pending : List WorkerID} (h : s.Awaits wid) (hnot : wid ∉ pending) :
    (pending.foldl (Sched.disableWorker srt) s).Awaits wid := by
  induction pending generalizing s with
  | nil => exact h
  | cons wid' pending ih =>
    rw [mem_cons, not_or] at hnot
    obtain ⟨hne, hnot⟩ := hnot
    refine ih ?_ hnot
    rcases disableWorker_cases srt s wid' with heq | ⟨w, next, hw, hphase, heq⟩
    · rw [heq]
      exact h
    · rw [heq]
      show (s.setWorker wid' (w.disabled next)).Awaits wid
      rw [awaits_setWorker, if_neg hne]
      exact h

theorem awaits_sendWindow {wid' : WorkerID} {window : SchedWindow F} :
    (s.sendWindow wid' window).Awaits wid ↔ s.Awaits wid := by
  rcases sendWindow_cases s wid' window with heq | ⟨w, hw, heq⟩
  · rw [heq]
  · rw [heq]
    exact awaits_setWorker_same hw (.inl (by rfl)) wid

variable [Float64 F]

theorem dropped_step (h : Dropped wid s)
    (hstep : SchedStepped srt table s e s') : Dropped wid s' := by
  obtain ⟨hawaits, hnot⟩ := h
  unfold pendingDisables at hnot
  unfold Dropped pendingDisables
  cases hstep with
  | add wid' info _ hnone =>
    refine ⟨?_, hnot⟩
    rw [awaits_setWorker, if_neg]
    · exact hawaits
    · rintro rfl
      obtain ⟨w, next, hw, -⟩ := hawaits
      rw [hnone] at hw
      cases hw
  | present wid' info => exact ⟨hawaits, hnot⟩
  | begin m t _ haccept _ =>
    have ht := awaits_accepted hawaits haccept
    exact ht
  | pass m t hphase haccept _ =>
    rw [phase_accepted haccept, hphase]
    exact ⟨(awaits_accepted hawaits haccept).1, not_mem_nil⟩
  | gather m t toDisable hphase haccept =>
    rw [hphase] at hnot
    obtain ⟨ht, hm⟩ := awaits_accepted hawaits haccept
    exact ⟨ht, fun hmem => (mem_append.mp hmem).elim hnot hm⟩
  | endGather toDisable hphase =>
    rw [hphase] at hnot
    exact ⟨awaits_disableAll hawaits hnot, not_mem_nil⟩
  | assign ok arrange hphase | delivered hphase => exact ⟨hawaits, not_mem_nil⟩
  | deliver wid' window rest _ => exact ⟨awaits_sendWindow.mpr hawaits, not_mem_nil⟩
  | request wid' w hw _ =>
    exact ⟨(awaits_setWorker_same hw (.inl (by rfl)) wid).mpr hawaits, hnot⟩
  | worker wid' e w w' answered hw hstepped =>
    refine ⟨(awaits_setWorker_same hw ?_ wid).mpr hawaits, hnot⟩
    exact (phase_stepped hstepped).imp_right fun hrun => ⟨hrun.1, hrun.2.2⟩
  | remove wid' w hw hphase _ =>
    refine ⟨(awaits_setWorker_same hw ?_ wid).mpr hawaits, hnot⟩
    exact .inr ⟨running_of_eq hphase, nofun⟩

end Dropped

end SchedLemmas

open SchedLemmas in
/-- In every run, every request to disable a worker is answered at the end of the iteration in
which it is received, with the requests of its windows in the queue, exactly when none is received
before the scheduler is initialised. -/
theorem disables_acknowledged_iff {F : Type} [Float64 F] (srt : QueueSort) (table : ResourceTable F)
    {events : List (SchedEvent F)} {states : List (Sched F)}
    (hrun : trace (Sched.step srt table) (newSched F) events = some states) :
    (∀ s ∈ states, s.Acknowledged srt table) ↔
      Guarded (Sched.step srt table) DisablesInitialised (newSched F) events := by
  have hstart : Logged (newSched F) (pendingDisables (newSched F)) := by
    refine ⟨rfl, fun wid => iff_of_false ?_ not_mem_nil, nodup_nil, nofun⟩
    rintro ⟨w, next, hw, -⟩
    cases hw
  refine trace_forall_iff (fun s e s' (hinv : DisableInv s) _ hinit hstep => ?_)
    (fun s e s' hinv _ hstep => ?_) ⟨hstart, nofun⟩ hstart.acknowledged hrun
  · have hstepped := schedStepped_of_step hstep
    exact ⟨logged_step hinv.logged hinit hstepped,
      gathersInitialised_step hinv.initialised hstepped⟩
  · have hstepped := schedStepped_of_step hstep
    exact ⟨fun h => initialised_of_acknowledged hstepped h hinv.initialised,
      fun hinit => (logged_step hinv.logged hinit hstepped).acknowledged⟩

/-- No worker is acceptable for a request. -/
def noneOk : WorkerRequest → WorkerID → Option (Bool × Bool) := fun _ _ => none

/-- The rest of an iteration, with answers of the selectors. -/
def restOfIteration (ok : WorkerRequest → WorkerID → Option (Bool × Bool)) : List (SchedEvent ℚ) :=
  [.endGather, .assign ok fun _ => .listed, .deliver]

/-- A worker is added, and asks for its windows. -/
def startWorker (wid : WorkerID) (info : WorkerInfo ℚ) : List (SchedEvent ℚ) :=
  [.add wid info, .worker wid .enter, .request wid, .request wid, .worker wid .requested]

/-- A worker is disabled after the scheduler is initialised. -/
def lateDisable : List (SchedEvent ℚ) :=
  [.receive .initWait] ++ restOfIteration noneOk ++ startWorker 0 idleWorker.info ++
    [.worker 0 (.session .err), .receive (.disable 0)] ++ restOfIteration noneOk

def stableQueue : QueueSort := Sorting.stable WorkerRequest.less_strictWeak

theorem disables_acknowledged_iff_late :
    ∃ states, trace (Sched.step stableQueue fun _ => none) (newSched ℚ) lateDisable = some states ∧
      ∀ s ∈ states, s.Acknowledged stableQueue fun _ => none := by
  have hsome : (trace (Sched.step stableQueue fun _ => none) (newSched ℚ) lateDisable).isSome := by
    decide +kernel
  obtain ⟨states, hrun⟩ := isSome_iff_exists.mp hsome
  exact ⟨states, hrun, (disables_acknowledged_iff stableQueue _ hrun).mpr (by decide +kernel)⟩

/-- A worker has a session error before `InitWait` has passed. -/
def earlyDisable : List (SchedEvent ℚ) :=
  startWorker 0 idleWorker.info ++ [.worker 0 (.session .err), .receive (.disable 0)]

open SchedLemmas in
/-- The request is received and dropped, and the worker waits for ever. -/
theorem early_disable_dropped :
    ∃ states, trace (Sched.step stableQueue fun _ => none) (newSched ℚ) earlyDisable = some states ∧
      ∃ s ∈ states, s.phase = .idle ∧ s.received = [0] ∧ s.acked = [] ∧
        ∀ more states', trace (Sched.step stableQueue fun _ => none) s more = some states' →
          ∀ t ∈ states', t.Awaits 0 := by
  refine ⟨_, rfl, _, mem_of_getElem? (i := 7) rfl, rfl, rfl, rfl, fun more states' hmore => ?_⟩
  have hall := trace_forall
    (fun s e s' (h : Dropped 0 s) hstep => dropped_step h (schedStepped_of_step hstep))
    ⟨⟨_, .retry, rfl, rfl⟩, not_mem_nil⟩ hmore
  exact fun t ht => (hall t ht).1

end OpenDsn.Sealer
