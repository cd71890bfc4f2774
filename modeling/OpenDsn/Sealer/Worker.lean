import OpenDsn.Sealer.Assigner

/-!
# The goroutine of a worker

`storage/sealer/sched_worker.go`. The goroutine asks the scheduler for windows, checks the session
of the worker, takes the windows that come in, moves requests from newer windows to older ones,
and starts the tasks. A task is first prepared and then worked on. A session error or the end of
the session makes the goroutine ask the scheduler to disable the worker, and wait for the answer.

A step is a critical section, or what goes on between two operations on channels:

* `SchedWorker.step`: the steps of the goroutine and of the tasks;
* `places_stepped`: a step keeps the requests that the worker has, but for those that are answered.
-/

namespace OpenDsn.Sealer

open Lib List Option

/-- `SchedWindows`, the size of the channel of windows. -/
def schedWindows : Nat := 2

/-- Where the goroutine goes on after it has disabled the worker. -/
inductive AfterDisable
  /-- To wait for a heartbeat, or for a window that was in flight. -/
  | retry
  | session
  /-- The session has ended. -/
  | remove
deriving DecidableEq

inductive WorkerPhase
  /-- The head of the outer loop. -/
  | top
  | requestWindows
  | checkSession
  | waitForUpdates
  | compactWindows
  | assignReady
  | assignPreparing
  /-- A request of the first window is to be started. -/
  | starting (tidx : Nat)
  /-- Before the request to disable the worker is sent. -/
  | disabling (next : AfterDisable)
  /-- Until it is answered. -/
  | awaiting (next : AfterDisable)
  /-- After an error of the session. -/
  | retry
  /-- Before the worker is deleted from the map. -/
  | removing
  | gone
deriving DecidableEq

structure SchedWorker (F : Type) where
  info : WorkerInfo F
  preparing : ActiveResources F
  active : ActiveResources F
  activeWindows : List (SchedWindow F)
  enabled : Bool
  /-- The channel of windows. -/
  scheduledWindows : List (SchedWindow F)
  windowsRequested : Int
  phase : WorkerPhase
  preparingTasks : List WorkerRequest
  /-- Prepared, in `withResources`. -/
  waitingTasks : List WorkerRequest
  workingTasks : List WorkerRequest
  /-- Answered, and the resources are not yet free. -/
  finishingTasks : List WorkerRequest
  /-- Not prepared, and not yet answered. -/
  failedTasks : List WorkerRequest

variable {F : Type} [Float64 F]

def SchedWorker.handle (w : SchedWorker F) : WorkerHandle F :=
  ⟨w.info, w.preparing, w.active, w.activeWindows, w.enabled⟩

/-- `newWorkerHandle` and `runWorker`. -/
def newSchedWorker (info : WorkerInfo F) : SchedWorker F where
  info := info
  preparing := newActiveResources
  active := newActiveResources
  activeWindows := []
  enabled := true
  scheduledWindows := []
  windowsRequested := 0
  phase := .top
  preparingTasks := []
  waitingTasks := []
  workingTasks := []
  finishingTasks := []
  failedTasks := []

section Windows

variable (table : ResourceTable F) (info : WorkerInfo F)

/-- `ResourceSpec` of a request. -/
def needRes (r : WorkerRequest) : Resources F := info.resources.resourceSpec table r.sealTask

def canHandle (a : ActiveResources F) (r : WorkerRequest) : Bool :=
  a.canHandleRequest r.sealTask (needRes table info r) info

def charge (a : ActiveResources F) (r : WorkerRequest) : ActiveResources F :=
  a.add r.sealTask info.resources (needRes table info r)

def discharge (a : ActiveResources F) (r : WorkerRequest) : ActiveResources F :=
  a.free r.sealTask info.resources (needRes table info r)

/-- The requests of a window that fit in the one before it are moved. -/
def compactTodo : List WorkerRequest → SchedWindow F → ActiveResources F → List WorkerRequest →
    SchedWindow F × SchedWindow F
  | [], lower, allocated, kept => (lower, ⟨allocated, kept⟩)
  | todo :: rest, lower, allocated, kept =>
      if canHandle table info lower.allocated todo then
        compactTodo rest ⟨charge table info lower.allocated todo, lower.todo ++ [todo]⟩
          (discharge table info allocated todo) kept
      else compactTodo rest lower allocated (kept ++ [todo])

def compactFrom : SchedWindow F → List (SchedWindow F) → List (SchedWindow F)
  | lower, [] => [lower]
  | lower, window :: rest =>
      match compactTodo table info window.todo lower window.allocated [] with
      | (lower, window) => lower :: compactFrom window rest

def compactWindows : List (SchedWindow F) → List (SchedWindow F)
  | [] => []
  | lower :: rest => compactFrom table info lower rest

/-- `TTCommit1` and `TTCommit2` need no preparation. -/
def isReady (r : WorkerRequest) : Bool := r.taskType = .commit1 ∨ r.taskType = .commit2

/-- The loop over the requests of a window. Each round starts one of them, so the number of
rounds is at most the number of requests. -/
def readyWindow : Nat → ActiveResources F → List WorkerRequest → List WorkerRequest →
    ActiveResources F × List WorkerRequest × List WorkerRequest
  | 0, active, todo, started => (active, todo, started)
  | rounds + 1, active, todo, started =>
      match todo.findIdx? (fun r => isReady r && canHandle table info active r) with
      | none => (active, todo, started)
      | some tidx =>
          match todo[tidx]? with
          | none => (active, todo, started)
          | some r =>
              readyWindow rounds (charge table info active r) (todo.eraseIdx tidx) (started ++ [r])

structure Readied (F : Type) where
  active : ActiveResources F
  windows : List (SchedWindow F)
  started : List WorkerRequest

/-- The loop over the windows ends with the first one that is not empty. -/
def readyLoop : List (SchedWindow F) → ActiveResources F → List WorkerRequest → Readied F
  | [], active, started => ⟨active, [], started⟩
  | window :: rest, active, started =>
      match readyWindow table info window.todo.length active window.todo started with
      | (active, [], started) => readyLoop rest active started
      | (active, todo, started) => ⟨active, ⟨window.allocated, todo⟩ :: rest, started⟩

end Windows

inductive SessionResult
  | err
  | changed
  | same

inductive WorkerEvent
  /-- The worker is enabled, and asks for windows, or it is not. -/
  | enter
  /-- No more windows are to be asked for. -/
  | requested
  | session (result : SessionResult)
  | heartbeat
  /-- A window comes in. -/
  | window
  | taskDone
  | compact
  | assignReady
  /-- The next request to be prepared is looked for. -/
  | check
  | start
  | prepared (i : Nat)
  | prepareFailed (i : Nat)
  /-- A task that waits for resources is woken up. -/
  | wake (i : Nat)
  | respond (i : Nat)
  | respondFailed (i : Nat)
  | finish (i : Nat)

/-- What `handleWorker` takes `workersLk` for, other than to read. -/
def WorkerEvent.locks : WorkerEvent → Bool
  | .enter => true
  | .session .same => true
  | _ => false

namespace SchedWorker

variable (table : ResourceTable F) (w : SchedWorker F)

def goto (phase : WorkerPhase) : SchedWorker F := { w with phase := phase }

def workerCompactWindows : SchedWorker F :=
  let windows := compactWindows table w.info w.activeWindows
  { w with
    activeWindows := windows.filter fun window => window.todo.length ≠ 0
    windowsRequested :=
      w.windowsRequested - (windows.filter fun window => window.todo.length = 0).length
    phase := .assignReady }

/-- Prepared tasks that wait go first. -/
def assignReadyWork : SchedWorker F :=
  if w.waitingTasks.length > 0 then w.goto .assignPreparing
  else
    let out := readyLoop table w.info w.activeWindows w.active []
    { w with
      active := out.active
      activeWindows := out.windows
      windowsRequested := w.windowsRequested - (w.activeWindows.length - out.windows.length : Nat)
      workingTasks := w.workingTasks ++ out.started
      phase := .assignPreparing }

/-- One round of the loop of `assignPreparingWork`, up to the unlock. -/
def checkPreparing : SchedWorker F :=
  match w.activeWindows with
  | [] => w.goto .top
  | window :: rest =>
      if window.todo.length = 0 then
        { w with activeWindows := rest, windowsRequested := w.windowsRequested - 1 }
      else
        match window.todo.findIdx? (canHandle table w.info w.preparing) with
        | none => w.goto .top
        | some tidx => w.goto (.starting tidx)

/-- `startProcessingTask`, and the request is taken out of the window. -/
def startPreparing (tidx : Nat) : Option (SchedWorker F) :=
  match w.activeWindows with
  | [] => none
  | window :: rest =>
      match window.todo[tidx]? with
      | none => none
      | some r => some { w with
          preparing := charge table w.info w.preparing r
          activeWindows := ⟨window.allocated, window.todo.eraseIdx tidx⟩ :: rest
          preparingTasks := w.preparingTasks ++ [r]
          phase := .assignPreparing }

/-- A task that was prepared goes to work: its resources are charged to the active ones, and
those for the preparation are free. -/
def activate (r : WorkerRequest) : SchedWorker F :=
  { w with
    active := charge table w.info w.active r
    preparing := discharge table w.info w.preparing r
    workingTasks := w.workingTasks ++ [r] }

/-- A step, with the requests that are answered in it. `none` for a step that cannot be made. -/
def step : WorkerEvent → Option (SchedWorker F × List WorkerRequest)
  | .enter =>
      if w.phase = .top then
        some (if w.enabled then w.goto .requestWindows else w.goto .checkSession, [])
      else none
  | .requested =>
      if w.phase = .requestWindows ∧ w.windowsRequested ≥ schedWindows then
        some (w.goto .checkSession, [])
      else none
  | .session result =>
      if w.phase = .checkSession then
        match result with
        | .err => some (w.goto (.disabling .retry), [])
        | .changed => some (w.goto (.disabling .remove), [])
        | .same =>
            some ({ w with
              enabled := true
              phase := if w.enabled then .waitForUpdates else .compactWindows }, [])
      else none
  | .heartbeat =>
      if w.phase = .waitForUpdates ∨ w.phase = .retry then some (w.goto .checkSession, []) else none
  | .window =>
      match w.scheduledWindows with
      | [] => none
      | window :: rest =>
          let w' := { w with
            activeWindows := w.activeWindows ++ [window]
            scheduledWindows := rest }
          if w.phase = .waitForUpdates then some (w'.goto .compactWindows, [])
          -- it was in flight when the worker was disabled
          else if w.phase = .retry then some (w'.goto (.disabling .session), [])
          else none
  | .taskDone => if w.phase = .waitForUpdates then some (w.goto .compactWindows, []) else none
  | .compact =>
      if w.phase = .compactWindows then some (w.workerCompactWindows table, []) else none
  | .assignReady => if w.phase = .assignReady then some (w.assignReadyWork table, []) else none
  | .check => if w.phase = .assignPreparing then some (w.checkPreparing table, []) else none
  | .start =>
      match w.phase with
      | .starting tidx => (w.startPreparing table tidx).map (·, [])
      | _ => none
  | .prepared i =>
      match w.preparingTasks[i]? with
      | none => none
      | some r =>
          let w := { w with preparingTasks := w.preparingTasks.eraseIdx i }
          if canHandle table w.info w.active r then some (w.activate table r, [])
          else some ({ w with waitingTasks := w.waitingTasks ++ [r] }, [])
  | .prepareFailed i =>
      match w.preparingTasks[i]? with
      | none => none
      | some r => some ({ w with
          preparing := discharge table w.info w.preparing r
          preparingTasks := w.preparingTasks.eraseIdx i
          failedTasks := w.failedTasks ++ [r] }, [])
  | .wake i =>
      match w.waitingTasks[i]? with
      | none => none
      | some r =>
          if canHandle table w.info w.active r then
            some ({ w with waitingTasks := w.waitingTasks.eraseIdx i }.activate table r, [])
          else some (w, [])
  | .respond i =>
      match w.workingTasks[i]? with
      | none => none
      | some r => some ({ w with
          workingTasks := w.workingTasks.eraseIdx i
          finishingTasks := w.finishingTasks ++ [r] }, [r])
  | .respondFailed i =>
      match w.failedTasks[i]? with
      | none => none
      | some r => some ({ w with failedTasks := w.failedTasks.eraseIdx i }, [r])
  | .finish i =>
      match w.finishingTasks[i]? with
      | none => none
      | some r => some ({ w with
          active := discharge table w.info w.active r
          finishingTasks := w.finishingTasks.eraseIdx i }, [])

/-- A window is put in the channel. -/
def send (window : SchedWindow F) : SchedWorker F :=
  { w with scheduledWindows := w.scheduledWindows ++ [window] }

/-- The scheduler has answered: the windows are handed over. -/
def disabled (next : AfterDisable) : SchedWorker F :=
  { w with
    activeWindows := []
    windowsRequested := 0
    enabled := false
    phase :=
      match next with
      | .retry => .retry
      | .session => .checkSession
      | .remove => .removing }

/-- The requests that the worker has and that are not answered. What is in the channel of a worker
that is gone is lost. -/
def places : List WorkerRequest :=
  (if w.phase = .gone then [] else todos w.scheduledWindows) ++ todos w.activeWindows ++
    w.preparingTasks ++ w.waitingTasks ++ w.workingTasks ++ w.failedTasks

end SchedWorker

namespace WorkerLemmas

open SchedWorker

section

variable (r : WorkerRequest)

theorem count_cons_eq (x : WorkerRequest) (l : List WorkerRequest) :
    (x :: l).count r = [x].count r + l.count r := by
  show ([x] ++ l).count r = _
  exact count_append

theorem count_eraseIdx {l : List WorkerRequest} {i : Nat} {x : WorkerRequest} (h : l[i]? = some x) :
    (l.eraseIdx i).count r + [x].count r = l.count r := by
  obtain ⟨hi, rfl⟩ := List.getElem?_eq_some_iff.mp h
  rw [← (getElem_cons_eraseIdx_perm hi).count_eq r, count_cons_eq r l[i] (l.eraseIdx i),
    add_comm]

omit [Float64 F] in
@[simp]
theorem count_todos_nil : (todos ([] : List (SchedWindow F))).count r = 0 := rfl

omit [Float64 F] in
@[simp]
theorem count_todos_cons (window : SchedWindow F) (windows : List (SchedWindow F)) :
    (todos (window :: windows)).count r = window.todo.count r + (todos windows).count r := by
  unfold todos
  rw [flatMap_cons, count_append]

omit [Float64 F] in
@[simp]
theorem count_todos_append (windows windows' : List (SchedWindow F)) :
    (todos (windows ++ windows')).count r = (todos windows).count r + (todos windows').count r := by
  unfold todos
  rw [flatMap_append, count_append]

/-! ### The windows -/

section Windows

variable (table : ResourceTable F) (info : WorkerInfo F)

theorem count_compactTodo (todo kept : List WorkerRequest) (lower : SchedWindow F)
    (allocated : ActiveResources F) :
    (compactTodo table info todo lower allocated kept).1.todo.count r +
        (compactTodo table info todo lower allocated kept).2.todo.count r =
      lower.todo.count r + todo.count r + kept.count r := by
  induction todo generalizing lower allocated kept with
  | nil => simp [compactTodo]
  | cons t todo ih =>
    unfold compactTodo
    split <;> rw [ih, count_append, count_cons_eq r t todo] <;> omega

theorem count_compactFrom (lower : SchedWindow F) (windows : List (SchedWindow F)) :
    (todos (compactFrom table info lower windows)).count r =
      lower.todo.count r + (todos windows).count r := by
  induction windows generalizing lower with
  | nil => simp [compactFrom]
  | cons window windows ih =>
    have hmove := count_compactTodo r table info window.todo [] lower window.allocated
    unfold compactFrom
    rw [count_todos_cons, count_todos_cons, ih]
    rw [count_nil] at hmove
    omega

theorem count_compactWindows (windows : List (SchedWindow F)) :
    (todos (compactWindows table info windows)).count r = (todos windows).count r := by
  cases windows with
  | nil => rfl
  | cons lower windows =>
    exact (count_compactFrom r table info lower windows).trans (count_todos_cons r _ _).symm

omit [Float64 F] in
theorem count_filter_nonempty (windows : List (SchedWindow F)) :
    (todos (windows.filter fun window => window.todo.length ≠ 0)).count r =
      (todos windows).count r := by
  induction windows with
  | nil => rfl
  | cons window windows ih =>
    rw [count_todos_cons, filter_cons]
    split
    · rw [count_todos_cons, ih]
    · next hempty =>
      rw [ih]
      simp only [ne_eq, decide_not, Bool.not_eq_true', decide_eq_false_iff_not, not_not,
        length_eq_zero_iff] at hempty
      rw [hempty, count_nil, zero_add]

theorem count_readyWindow (rounds : Nat) (active : ActiveResources F)
    (todo started : List WorkerRequest) :
    (readyWindow table info rounds active todo started).2.1.count r +
        (readyWindow table info rounds active todo started).2.2.count r =
      todo.count r + started.count r := by
  induction rounds generalizing active todo started with
  | zero => rfl
  | succ rounds ih =>
    unfold readyWindow
    split
    · rfl
    · split
      · rfl
      · next x hx =>
        have herase := count_eraseIdx r hx
        rw [ih, count_append]
        omega

theorem count_readyLoop (windows : List (SchedWindow F)) (active : ActiveResources F)
    (started : List WorkerRequest) :
    (todos (readyLoop table info windows active started).windows).count r +
        (readyLoop table info windows active started).started.count r =
      (todos windows).count r + started.count r := by
  induction windows generalizing active started with
  | nil => rfl
  | cons window windows ih =>
    have hmove := count_readyWindow r table info window.todo.length active window.todo started
    unfold readyLoop
    split
    · next active' started' heq =>
      rw [heq] at hmove
      rw [ih, count_todos_cons]
      simp only [count_nil] at hmove
      omega
    · next active' todo' started' _ heq =>
      rw [heq] at hmove
      simp only [count_todos_cons]
      simp only at hmove
      omega

end Windows

end

/-! ### The steps -/

variable {table : ResourceTable F} {w w' : SchedWorker F} {e : WorkerEvent}
  {answered : List WorkerRequest}

/-- A phase in which the goroutine runs. -/
def Running (phase : WorkerPhase) : Prop := phase ≠ .gone ∧ ∀ next, phase ≠ .awaiting next

/-- What a step does, with the requests that it answers. -/
inductive Stepped (table : ResourceTable F) (w : SchedWorker F) :
    SchedWorker F → List WorkerRequest → Prop
  | move (phase : WorkerPhase) (enabled : Bool) : Running w.phase → Running phase →
      (∀ tidx, phase ≠ .starting tidx) →
      Stepped table w { w with phase := phase, enabled := enabled } []
  | window (phase : WorkerPhase) (window : SchedWindow F) (rest : List (SchedWindow F)) :
      Running w.phase → Running phase → (∀ tidx, phase ≠ .starting tidx) →
      w.scheduledWindows = window :: rest →
      Stepped table w { w with
        activeWindows := w.activeWindows ++ [window], scheduledWindows := rest, phase := phase } []
  | compact : w.phase = .compactWindows → Stepped table w (w.workerCompactWindows table) []
  | assignReady : w.phase = .assignReady → Stepped table w (w.assignReadyWork table) []
  | pop (window : SchedWindow F) (rest : List (SchedWindow F)) :
      w.phase = .assignPreparing → w.activeWindows = window :: rest → window.todo = [] →
      Stepped table w
        { w with activeWindows := rest, windowsRequested := w.windowsRequested - 1 } []
  | check (window : SchedWindow F) (rest : List (SchedWindow F)) (tidx : Nat) :
      w.phase = .assignPreparing → w.activeWindows = window :: rest →
      window.todo.findIdx? (canHandle table w.info w.preparing) = some tidx →
      Stepped table w (w.goto (.starting tidx)) []
  | start (window : SchedWindow F) (rest : List (SchedWindow F)) (tidx : Nat) (r : WorkerRequest) :
      w.phase = .starting tidx → w.activeWindows = window :: rest → window.todo[tidx]? = some r →
      Stepped table w { w with
        preparing := charge table w.info w.preparing r
        activeWindows := ⟨window.allocated, window.todo.eraseIdx tidx⟩ :: rest
        preparingTasks := w.preparingTasks ++ [r]
        phase := .assignPreparing } []
  | activatePrepared (i : Nat) (r : WorkerRequest) : w.preparingTasks[i]? = some r →
      canHandle table w.info w.active r = true →
      Stepped table w ({ w with
        preparingTasks := w.preparingTasks.eraseIdx i }.activate table r) []
  | wait (i : Nat) (r : WorkerRequest) : w.preparingTasks[i]? = some r →
      Stepped table w { w with
        preparingTasks := w.preparingTasks.eraseIdx i
        waitingTasks := w.waitingTasks ++ [r] } []
  | prepareFailed (i : Nat) (r : WorkerRequest) : w.preparingTasks[i]? = some r →
      Stepped table w { w with
        preparing := discharge table w.info w.preparing r
        preparingTasks := w.preparingTasks.eraseIdx i
        failedTasks := w.failedTasks ++ [r] } []
  | activateWaiting (i : Nat) (r : WorkerRequest) : w.waitingTasks[i]? = some r →
      canHandle table w.info w.active r = true →
      Stepped table w ({ w with waitingTasks := w.waitingTasks.eraseIdx i }.activate table r) []
  | stay : Stepped table w w []
  | respond (i : Nat) (r : WorkerRequest) : w.workingTasks[i]? = some r →
      Stepped table w { w with
        workingTasks := w.workingTasks.eraseIdx i
        finishingTasks := w.finishingTasks ++ [r] } [r]
  | respondFailed (i : Nat) (r : WorkerRequest) : w.failedTasks[i]? = some r →
      Stepped table w { w with failedTasks := w.failedTasks.eraseIdx i } [r]
  | finish (i : Nat) (r : WorkerRequest) : w.finishingTasks[i]? = some r →
      Stepped table w { w with
        active := discharge table w.info w.active r
        finishingTasks := w.finishingTasks.eraseIdx i } []

omit [Float64 F] in
theorem running_of_eq {phase : WorkerPhase} (h : w.phase = phase)
    (hphase : Running phase := by exact ⟨nofun, nofun⟩) : Running w.phase := h ▸ hphase

/-- A round of `assignPreparingWork` up to the unlock. -/
theorem stepped_checkPreparing (hphase : w.phase = .assignPreparing) :
    Stepped table w (w.checkPreparing table) [] := by
  unfold checkPreparing
  split
  · exact .move _ _ (running_of_eq hphase) ⟨nofun, nofun⟩ nofun
  · next window rest hwindows =>
    split
    · next hempty => exact .pop window rest hphase hwindows (length_eq_zero_iff.mp hempty)
    · split
      · exact .move _ _ (running_of_eq hphase) ⟨nofun, nofun⟩ nofun
      · next tidx hfind => exact .check window rest tidx hphase hwindows hfind

theorem stepped_startPreparing {tidx : Nat} (hphase : w.phase = .starting tidx)
    (h : w.startPreparing table tidx = some w') : Stepped table w w' [] := by
  unfold startPreparing at h
  split at h
  · cases h
  next window rest hwindows =>
  split at h
  · cases h
  next r hr =>
  cases h
  exact .start window rest tidx r hphase hwindows hr

theorem stepped_window (h : w.step table .window = some (w', answered)) :
    Stepped table w w' answered := by
  simp only [step] at h
  split at h
  · cases h
  next window rest hwindows =>
  split at h
  · next hphase =>
    cases h
    exact .window _ window rest (running_of_eq hphase) ⟨nofun, nofun⟩ nofun hwindows
  · obtain ⟨hphase, heq⟩ := ite_none_right_eq_some.mp h
    cases heq
    exact .window _ window rest (running_of_eq hphase) ⟨nofun, nofun⟩ nofun hwindows

theorem stepped_session {result : SessionResult}
    (h : w.step table (.session result) = some (w', answered)) : Stepped table w w' answered := by
  obtain ⟨hphase, heq⟩ := ite_none_right_eq_some.mp h
  cases result with
  | err | changed => cases heq; exact .move _ _ (running_of_eq hphase) ⟨nofun, nofun⟩ nofun
  | same =>
    cases heq
    refine .move _ _ (running_of_eq hphase) ?_ ?_
    · split <;> exact ⟨nofun, nofun⟩
    · split <;> exact nofun

theorem stepped_of_step (h : w.step table e = some (w', answered)) :
    Stepped table w w' answered := by
  cases e with
  | enter =>
    obtain ⟨hphase, heq⟩ := ite_none_right_eq_some.mp h
    split at heq <;> cases heq <;> exact .move _ _ (running_of_eq hphase) ⟨nofun, nofun⟩ nofun
  | requested =>
    obtain ⟨hphase, heq⟩ := ite_none_right_eq_some.mp h
    cases heq
    exact .move _ _ (running_of_eq hphase.1) ⟨nofun, nofun⟩ nofun
  | session result => exact stepped_session h
  | heartbeat =>
    obtain ⟨hphase, heq⟩ := ite_none_right_eq_some.mp h
    cases heq
    refine .move _ _ ?_ ⟨nofun, nofun⟩ nofun
    exact hphase.elim running_of_eq running_of_eq
  | window => exact stepped_window h
  | taskDone =>
    obtain ⟨hphase, heq⟩ := ite_none_right_eq_some.mp h
    cases heq
    exact .move _ _ (running_of_eq hphase) ⟨nofun, nofun⟩ nofun
  | compact =>
    obtain ⟨hphase, heq⟩ := ite_none_right_eq_some.mp h
    cases heq
    exact .compact hphase
  | assignReady =>
    obtain ⟨hphase, heq⟩ := ite_none_right_eq_some.mp h
    cases heq
    exact .assignReady hphase
  | check =>
    obtain ⟨hphase, heq⟩ := ite_none_right_eq_some.mp h
    cases heq
    exact stepped_checkPreparing hphase
  | start =>
    simp only [step] at h
    split at h
    · next tidx hphase =>
      obtain ⟨w'', hstart, heq⟩ := map_eq_some_iff.mp h
      cases heq
      exact stepped_startPreparing hphase hstart
    · cases h
  | prepared i =>
    simp only [step] at h
    split at h
    · cases h
    next r hr =>
    split at h
    · next hcan => cases h; exact .activatePrepared i r hr hcan
    · cases h; exact .wait i r hr
  | prepareFailed i =>
    simp only [step] at h
    split at h
    · cases h
    · next r hr => cases h; exact .prepareFailed i r hr
  | wake i =>
    simp only [step] at h
    split at h
    · cases h
    next r hr =>
    split at h
    · next hcan => cases h; exact .activateWaiting i r hr hcan
    · cases h; exact .stay
  | respond i =>
    simp only [step] at h
    split at h
    · cases h
    · next r hr => cases h; exact .respond i r hr
  | respondFailed i =>
    simp only [step] at h
    split at h
    · cases h
    · next r hr => cases h; exact .respondFailed i r hr
  | finish i =>
    simp only [step] at h
    split at h
    · cases h
    · next r hr => cases h; exact .finish i r hr

/-- What the worker has of a request, other than in its channel. -/
def held (w : SchedWorker F) (r : WorkerRequest) : Nat :=
  (todos w.activeWindows).count r + w.preparingTasks.count r + w.waitingTasks.count r +
    w.workingTasks.count r + w.failedTasks.count r

omit [Float64 F] in
theorem count_places (r : WorkerRequest) :
    w.places.count r =
      (if w.phase = .gone then 0 else (todos w.scheduledWindows).count r) + held w r := by
  unfold places held
  simp only [count_append]
  split
  · rw [count_nil]
    omega
  · omega

omit [Float64 F] in
theorem count_places_running (h : w.phase ≠ .gone) (r : WorkerRequest) :
    w.places.count r = (todos w.scheduledWindows).count r + held w r := by
  rw [count_places, if_neg h]

omit [Float64 F] in
/-- A task moves on, and the windows stay. -/
theorem places_task (hphase : w'.phase = w.phase)
    (hchannel : w'.scheduledWindows = w.scheduledWindows) {r : WorkerRequest}
    (hheld : held w' r + answered.count r = held w r) :
    w'.places.count r + answered.count r = w.places.count r := by
  rw [count_places, count_places, hphase, hchannel]
  omega

theorem places_stepped (h : Stepped table w w' answered) (r : WorkerRequest) :
    w'.places.count r + answered.count r = w.places.count r := by
  cases h with
  | move phase enabled hw hphase _ =>
    rw [count_places_running hw.1, count_places_running hphase.1]
    rfl
  | window phase window rest hw hphase _ hwindows =>
    rw [count_places_running hw.1, count_places_running hphase.1]
    simp only [held, hwindows, count_todos_append, count_todos_cons, count_todos_nil,
      count_nil]
    omega
  | compact hphase =>
    have hw := (running_of_eq hphase).1
    rw [count_places_running hw, count_places_running (by nofun)]
    simp only [held, workerCompactWindows, count_filter_nonempty,
      count_compactWindows, count_nil, add_zero]
  | assignReady hphase =>
    have hw := (running_of_eq hphase).1
    unfold assignReadyWork
    split
    · rw [count_places_running hw, count_places_running (by nofun)]
      rfl
    · have hready := count_readyLoop r table w.info w.activeWindows w.active []
      rw [count_places_running hw, count_places_running (by nofun)]
      simp only [held, count_append, count_nil] at hready ⊢
      omega
  | pop window rest _ hwindows hempty =>
    refine places_task (by rfl) (by rfl) ?_
    simp only [held, hwindows, count_todos_cons, hempty, count_nil]
    omega
  | check window rest tidx hphase _ _ =>
    have hw := (running_of_eq hphase).1
    rw [count_places_running hw, count_places_running (by nofun)]
    rfl
  | start window rest tidx x hphase hwindows hx =>
    have hw := (running_of_eq hphase).1
    have herase := count_eraseIdx r hx
    rw [count_places_running hw, count_places_running (by nofun)]
    simp only [held, hwindows, count_todos_cons, count_append, count_nil]
    omega
  | activatePrepared i x hx hcan | activateWaiting i x hx hcan =>
    have herase := count_eraseIdx r hx
    refine places_task (by rfl) (by rfl) ?_
    simp only [held, activate, count_append, count_nil]
    omega
  | wait i x hx | prepareFailed i x hx =>
    have herase := count_eraseIdx r hx
    refine places_task (by rfl) (by rfl) ?_
    simp only [held, count_append, count_nil]
    omega
  | stay => rfl
  | respond i x hx | respondFailed i x hx =>
    have herase := count_eraseIdx r hx
    refine places_task (by rfl) (by rfl) ?_
    simp only [held]
    omega
  | finish i x _ =>
    refine places_task (by rfl) (by rfl) ?_
    rfl

/-- A step neither ends the wait for the scheduler nor begins it, and no worker leaves in one. -/
theorem phase_stepped (h : Stepped table w w' answered) :
    w'.phase = w.phase ∨ Running w.phase ∧ Running w'.phase := by
  cases h with
  | move phase enabled hw hphase hother | window phase window rest hw hphase hother hwindows =>
    exact .inr ⟨hw, hphase⟩
  | compact hphase => exact .inr ⟨running_of_eq hphase, ⟨nofun, nofun⟩⟩
  | assignReady hphase =>
    refine .inr ⟨running_of_eq hphase, ?_⟩
    unfold assignReadyWork
    split <;> exact ⟨nofun, nofun⟩
  | check window rest tidx hphase hwindows hfind | start window rest tidx x hphase hwindows hx =>
    exact .inr ⟨running_of_eq hphase, ⟨nofun, nofun⟩⟩
  | pop | activatePrepared | wait | prepareFailed | activateWaiting | stay | respond
  | respondFailed | finish => exact .inl rfl

end WorkerLemmas

end OpenDsn.Sealer
