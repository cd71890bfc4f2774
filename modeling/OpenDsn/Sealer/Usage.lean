import OpenDsn.Lib.Tally
import OpenDsn.Sealer.Handover

/-!
# Use of the resources of a worker

A worker has a record of what is in use for the tasks that are prepared, one for those that are
active, and one for every window. The records are charged and freed at different moments, by the
scheduler, by the goroutine of the worker and by the tasks. `CanHandleRequest` and `Free` subtract
without a check.

* `usage_within`: in every state of a run the records of a worker that counts its resources are
  within them, and no call of the next step wraps around, if the sums that are made of the needs
  of a task do not.
-/

namespace OpenDsn.Sealer

open Lib List Option

variable {F : Type} [Float64 F]

/-- The worker counts its resources, and no more is used outside of it than it has. -/
structure Metered (info : WorkerInfo F) : Prop where
  counted : info.ignoreResources = false
  used : info.resources.memUsed.toNat + info.resources.memSwapUsed.toNat ≤
    info.resources.memPhysical.toNat + info.resources.memSwap.toNat

instance (info : WorkerInfo F) : Decidable (Metered info) :=
  decidable_of_iff (info.ignoreResources = false ∧
      info.resources.memUsed.toNat + info.resources.memSwapUsed.toNat ≤
        info.resources.memPhysical.toNat + info.resources.memSwap.toNat)
    ⟨fun h => ⟨h.1, h.2⟩, fun h => ⟨h.counted, h.used⟩⟩

/-- The sums of the memory of the worker, of the memory that a task needs, and of the threads do
not wrap around. -/
structure NoWrap (table : ResourceTable F) (wr : WorkerResources F) : Prop where
  memory : wr.memPhysical.toNat + wr.memSwap.toNat < 2 ^ 64
  minMemory : ∀ tt, (wr.resourceSpec table tt).minMemory.toNat +
    (wr.resourceSpec table tt).baseMinMemory.toNat < 2 ^ 64
  maxMemory : ∀ tt, (wr.resourceSpec table tt).maxMemory.toNat +
    (wr.resourceSpec table tt).baseMinMemory.toNat < 2 ^ 64
  threads : ∀ tt, wr.cpus.toNat +
    ((wr.resourceSpec table tt).threads wr.cpus wr.gpus).toNat < 2 ^ 64

/-- What is in use is at most what the worker has. -/
structure ActiveResources.Within (table : ResourceTable F) (wr : WorkerResources F)
    (a : ActiveResources F) : Prop where
  memUsedMin : a.memUsedMin.toNat ≤ wr.memPhysical.toNat
  memUsedMax : a.memUsedMax.toNat ≤ wr.memPhysical.toNat + wr.memSwap.toNat
  cpuUse : a.cpuUse.toNat ≤ wr.cpus.toNat
  taskCounters : ∀ tt, 0 < (wr.resourceSpec table tt).maxConcurrent →
    a.taskCounters tt ≤ (wr.resourceSpec table tt).maxConcurrent

/-- The records of a worker. -/
def Sched.records (s : Sched F) (wid : WorkerID) (w : SchedWorker F) : List (ActiveResources F) :=
  w.preparing :: w.active :: (w.activeWindows ++ w.scheduledWindows ++
    (s.unsent.filter fun e => e.1 = wid).map Prod.snd).map SchedWindow.allocated

/-! ### Calls that subtract -/

inductive ResourceCall (F : Type)
  | canHandleRequest (a : ActiveResources F)
  | free (a : ActiveResources F) (r : WorkerRequest)

def ResourceCall.record : ResourceCall F → ActiveResources F
  | .canHandleRequest a => a
  | .free a _ => a

/-- No subtraction of a call for the worker wraps around. -/
def ResourceCall.Exact (table : ResourceTable F) (info : WorkerInfo F) : ResourceCall F → Prop
  | .canHandleRequest a =>
      a.memUsedMin ≤ info.resources.memPhysical ∧
        max a.memUsedMax (info.resources.memUsed + info.resources.memSwapUsed) ≤
          info.resources.memPhysical + info.resources.memSwap
  | .free a r =>
      (needRes table info r).threads info.resources.cpus info.resources.gpus ≤ a.cpuUse ∧
        (needRes table info r).minMemory ≤ a.memUsedMin ∧
        (needRes table info r).maxMemory ≤ a.memUsedMax

instance (table : ResourceTable F) (info : WorkerInfo F) :
    ∀ c : ResourceCall F, Decidable (c.Exact table info)
  | .canHandleRequest a => inferInstanceAs (Decidable (a.memUsedMin ≤ info.resources.memPhysical ∧
      max a.memUsedMax (info.resources.memUsed + info.resources.memSwapUsed) ≤
        info.resources.memPhysical + info.resources.memSwap))
  | .free a r => inferInstanceAs (Decidable (
      (needRes table info r).threads info.resources.cpus info.resources.gpus ≤ a.cpuUse ∧
        (needRes table info r).minMemory ≤ a.memUsedMin ∧
        (needRes table info r).maxMemory ≤ a.memUsedMax))

section Calls

variable (table : ResourceTable F) (info : WorkerInfo F)

def compactTodoCalls :
    List WorkerRequest → ActiveResources F → ActiveResources F → List (ResourceCall F)
  | [], _, _ => []
  | todo :: rest, lower, allocated =>
      .canHandleRequest lower ::
        if canHandle table info lower todo then
          .free allocated todo ::
            compactTodoCalls rest (charge table info lower todo)
              (discharge table info allocated todo)
        else compactTodoCalls rest lower allocated

def compactFromCalls : SchedWindow F → List (SchedWindow F) → List (ResourceCall F)
  | _, [] => []
  | lower, window :: rest =>
      compactTodoCalls table info window.todo lower.allocated window.allocated ++
        compactFromCalls (compactTodo table info window.todo lower window.allocated []).2 rest

def compactCalls : List (SchedWindow F) → List (ResourceCall F)
  | [] => []
  | lower :: rest => compactFromCalls table info lower rest

/-- The checks of a round are all of the same record. -/
def readyWindowCalls : Nat → ActiveResources F → List WorkerRequest → List (ResourceCall F)
  | 0, _, _ => []
  | rounds + 1, active, todo =>
      .canHandleRequest active ::
        match todo.findIdx? (fun r => isReady r && canHandle table info active r) with
        | none => []
        | some tidx =>
            match todo[tidx]? with
            | none => []
            | some r => readyWindowCalls rounds (charge table info active r) (todo.eraseIdx tidx)

def readyCalls : List (SchedWindow F) → ActiveResources F → List (ResourceCall F)
  | [], _ => []
  | window :: rest, active =>
      readyWindowCalls table info window.todo.length active window.todo ++
        match readyWindow table info window.todo.length active window.todo [] with
        | (active, [], _) => readyCalls rest active
        | _ => []

end Calls

namespace SchedWorker

variable (table : ResourceTable F) (w : SchedWorker F)

/-- The calls of `withResources` when a task that was prepared tries to go to work. -/
def activateCalls (r : WorkerRequest) : List (ResourceCall F) :=
  .canHandleRequest w.active ::
    if canHandle table w.info w.active r then [.free w.preparing r] else []

def calls : WorkerEvent → List (ResourceCall F)
  | .compact => compactCalls table w.info w.activeWindows
  | .assignReady =>
      if w.waitingTasks.length > 0 then [] else readyCalls table w.info w.activeWindows w.active
  | .check => [.canHandleRequest w.preparing]
  | .prepared i => w.preparingTasks[i]?.toList.flatMap (w.activateCalls table)
  | .wake i => w.waitingTasks[i]?.toList.flatMap (w.activateCalls table)
  | .prepareFailed i => w.preparingTasks[i]?.toList.map (.free w.preparing)
  | .finish i => w.finishingTasks[i]?.toList.map (.free w.active)
  | _ => []

end SchedWorker

/-- The checks for one request: of a record without tasks, and of those of the windows. -/
def Pass.checks (p : Pass F) (windows : List (SchedWindow F)) :
    List (WorkerInfo F × ResourceCall F) :=
  (p.openWindows.zip windows).flatMap fun e =>
    match p.workers e.1 with
    | none => []
    | some worker => [(worker.info, .canHandleRequest newActiveResources),
        (worker.info, .canHandleRequest e.2.allocated)]

def Pass.assignCalls (p : Pass F) :
    List (WorkerRequest × Nat) → Assigned F → List (WorkerInfo F × ResourceCall F)
  | [], _ => []
  | task :: rest, s => p.checks s.windows ++ p.assignCalls rest (p.assignLoop [task] s)

/-- The calls of a step, with the workers they are for. -/
def Sched.calls (table : ResourceTable F) (s : Sched F) :
    SchedEvent F → List (WorkerInfo F × ResourceCall F)
  | .assign ok arrange =>
      (s.pass table ok arrange).assignCalls s.queue.zipIdx
        ⟨(s.pass table ok arrange).emptyWindows, ∅, []⟩
  | .worker wid e =>
      match s.workers.get? wid with
      | none => []
      | some w => (w.calls table e).map fun c => (w.info, c)
  | _ => []

namespace UsageLemmas

open WorkerLemmas SchedLemmas AssignerLemmas HandoverLemmas ActiveResources SchedWorker

/-! ### Records -/

section Records

variable (table : ResourceTable F) (info : WorkerInfo F)

/-- The tasks are counted, and the record is within the worker. -/
structure Accounted (a : ActiveResources F) (tasks : List WorkerRequest) : Prop where
  memUsedMin : Tally (fun r => (needRes table info r).minMemory)
    info.resources.memPhysical.toNat a.memUsedMin tasks
  memUsedMax : Tally (fun r => (needRes table info r).maxMemory)
    (info.resources.memPhysical.toNat + info.resources.memSwap.toNat) a.memUsedMax tasks
  cpuUse : Tally (fun r =>
      (needRes table info r).threads info.resources.cpus info.resources.gpus)
    info.resources.cpus.toNat a.cpuUse tasks
  taskCounters : ∀ tt, 0 < (info.resources.resourceSpec table tt).maxConcurrent →
    a.taskCounters tt ≤ (info.resources.resourceSpec table tt).maxConcurrent

/-- The task can be charged to the record. -/
structure HasRoom (a : ActiveResources F) (r : WorkerRequest) : Prop where
  memUsedMin : a.memUsedMin.toNat + (needRes table info r).minMemory.toNat ≤
    info.resources.memPhysical.toNat
  memUsedMax : a.memUsedMax.toNat + (needRes table info r).maxMemory.toNat ≤
    info.resources.memPhysical.toNat + info.resources.memSwap.toNat
  cpuUse : a.cpuUse.toNat +
      ((needRes table info r).threads info.resources.cpus info.resources.gpus).toNat ≤
    info.resources.cpus.toNat
  taskCounters : 0 < (needRes table info r).maxConcurrent →
    a.taskCounters r.sealTask < (needRes table info r).maxConcurrent

/-- The worker counts its resources, and the sums do not wrap around. -/
structure Sound : Prop where
  metered : Metered info
  noWrap : NoWrap table info.resources

variable {table info} {a : ActiveResources F} {r r' : WorkerRequest}
  {tasks tasks' : List WorkerRequest}

theorem Accounted.within (h : Accounted table info a tasks) : a.Within table info.resources :=
  ⟨h.memUsedMin.limited, h.memUsedMax.limited, h.cpuUse.limited, h.taskCounters⟩

theorem accounted_new : Accounted table info newActiveResources [] :=
  ⟨.zero, .zero, .zero, fun _ h => le_of_lt h⟩

theorem Accounted.subperm (h : Accounted table info a tasks) (htasks : tasks'.Subperm tasks) :
    Accounted table info a tasks' :=
  ⟨h.memUsedMin.subperm htasks, h.memUsedMax.subperm htasks, h.cpuUse.subperm htasks,
    h.taskCounters⟩

theorem Accounted.charge (h : Accounted table info a tasks) (hs : Sound table info)
    (hroom : HasRoom table info a r) :
    Accounted table info (charge table info a r) (r :: tasks) := by
  have hphysical : info.resources.memPhysical.toNat < 2 ^ 64 := UInt64.toNat_lt _
  have hcpus : info.resources.cpus.toNat < 2 ^ 64 := UInt64.toNat_lt _
  refine ⟨h.memUsedMin.add hphysical hroom.memUsedMin,
    h.memUsedMax.add hs.noWrap.memory hroom.memUsedMax, h.cpuUse.add hcpus hroom.cpuUse, ?_⟩
  intro tt htt
  dsimp only [Sealer.charge, add]
  rw [Function.update_apply]
  split
  · next heq => subst heq; exact hroom.taskCounters htt
  · exact h.taskCounters tt htt

theorem Accounted.discharge (h : Accounted table info a (r :: tasks)) :
    Accounted table info (discharge table info a r) tasks := by
  refine ⟨h.memUsedMin.sub, h.memUsedMax.sub, h.cpuUse.sub, ?_⟩
  intro tt htt
  have hcounter := h.taskCounters tt htt
  dsimp only [Sealer.discharge, ActiveResources.free]
  rw [Function.update_apply]
  split
  · next heq => subst heq; omega
  · exact hcounter

/-- A task that is freed leaves the room there is for another one. -/
theorem HasRoom.discharge (h : HasRoom table info a r')
    (ha : Accounted table info a (r :: tasks)) :
    HasRoom table info (discharge table info a r) r' := by
  have hmin := h.memUsedMin
  have hmax := h.memUsedMax
  have hcpu := h.cpuUse
  dsimp only [Sealer.discharge, ActiveResources.free]
  constructor
  · rw [ha.memUsedMin.toNat_sub]
    omega
  · rw [ha.memUsedMax.toNat_sub]
    omega
  · rw [ha.cpuUse.toNat_sub]
    omega
  · intro hlimit
    have hcounter := h.taskCounters hlimit
    dsimp only
    rw [Function.update_apply]
    split
    · next heq => rw [heq] at hcounter; omega
    · exact hcounter

theorem Accounted.exact_check (h : Accounted table info a tasks) (hs : Sound table info) :
    (ResourceCall.canHandleRequest a).Exact table info := by
  have hmemory := toNat_add_of_lt hs.noWrap.memory
  have hused := toNat_add_of_lt (hs.metered.used.trans_lt hs.noWrap.memory)
  refine ⟨UInt64.le_iff_toNat_le.mpr h.memUsedMin.limited, UInt64.le_iff_toNat_le.mpr ?_⟩
  rw [UInt64.toNat_max, hmemory, hused]
  exact Nat.max_le.mpr ⟨h.memUsedMax.limited, hs.metered.used⟩

theorem hasRoom_of_canHandle (h : Accounted table info a tasks) (hs : Sound table info)
    (hcan : canHandle table info a r = true) : HasRoom table info a r := by
  obtain ⟨hphysical, htotal⟩ := h.exact_check hs
  have hmemory := toNat_add_of_lt hs.noWrap.memory
  have hmin := toNat_add_of_lt (hs.noWrap.minMemory r.sealTask)
  have hmax := toNat_add_of_lt (hs.noWrap.maxMemory r.sealTask)
  have hthreads := hs.noWrap.threads r.sealTask
  have hcpu := h.cpuUse.limited
  unfold canHandle canHandleRequest at hcan
  rw [hs.metered.counted] at hcan
  split at hcan
  · cases hcan
  next hlimit =>
  rw [if_neg Bool.false_ne_true] at hcan
  split at hcan
  · cases hcan
  next hmemAvail =>
  split at hcan
  · cases hcan
  next hvmemAvail =>
  split at hcan
  · cases hcan
  next hcpus =>
  refine ⟨?_, ?_, ?_, fun hpos => not_le.mp fun hge => hlimit ⟨hpos, hge⟩⟩
  · have hle := UInt64.le_iff_toNat_le.mp (UInt64.not_lt.mp hmemAvail)
    rw [UInt64.toNat_sub_of_le _ _ hphysical] at hle
    rw [UInt64.le_iff_toNat_le] at hphysical
    unfold needRes at hle ⊢
    omega
  · have hle := UInt64.le_iff_toNat_le.mp (UInt64.not_lt.mp hvmemAvail)
    rw [UInt64.toNat_sub_of_le _ _ htotal, UInt64.toNat_max, hmemory] at hle
    rw [UInt64.le_iff_toNat_le, UInt64.toNat_max, hmemory] at htotal
    unfold needRes at hle ⊢
    omega
  · have hle := UInt64.le_iff_toNat_le.mp (UInt64.not_lt.mp hcpus)
    unfold needRes at hle ⊢
    rw [toNat_add_of_lt (by omega)] at hle
    exact hle

/-- The record of a call is within the worker, and the call does not wrap around. -/
def Safe (table : ResourceTable F) (info : WorkerInfo F) (c : ResourceCall F) : Prop :=
  c.record.Within table info.resources ∧ c.Exact table info

theorem Accounted.safe_check (h : Accounted table info a tasks) (hs : Sound table info) :
    Safe table info (.canHandleRequest a) := ⟨h.within, h.exact_check hs⟩

theorem Accounted.safe_free (h : Accounted table info a (r :: tasks)) :
    Safe table info (.free a r) :=
  ⟨h.within, h.cpuUse.amount_le, h.memUsedMin.amount_le, h.memUsedMax.amount_le⟩

end Records

/-! ### Windows -/

section Windows

variable {table : ResourceTable F} {info : WorkerInfo F} {lower : SchedWindow F}
  {windows : List (SchedWindow F)} {active : ActiveResources F} {tasks : List WorkerRequest}

variable (table info) in
def AccountedWindow (window : SchedWindow F) :
    Prop := Accounted table info window.allocated window.todo

variable (hs : Sound table info)
include hs

/-- The window has the requests that are left and those that were kept. -/
theorem accounted_compactTodo {todo kept : List WorkerRequest}
    {allocated : ActiveResources F} (hlower : AccountedWindow table info lower)
    (hwindow : Accounted table info allocated (todo ++ kept)) :
    AccountedWindow table info (compactTodo table info todo lower allocated kept).1 ∧
    AccountedWindow table info (compactTodo table info todo lower allocated kept).2 ∧
    ∀ c ∈ compactTodoCalls table info todo lower.allocated allocated, Safe table info c := by
  induction todo generalizing lower allocated kept with
  | nil => exact ⟨hlower, hwindow, forall_mem_nil _⟩
  | cons t todo ih =>
    have hcheck := hlower.safe_check hs
    unfold compactTodo compactTodoCalls
    rw [forall_mem_cons]
    by_cases hcan : canHandle table info lower.allocated t = true
    · have hcharged : AccountedWindow table info
          ⟨charge table info lower.allocated t, lower.todo ++ [t]⟩ :=
        (hlower.charge hs (hasRoom_of_canHandle hlower hs hcan)).subperm
          (perm_append_singleton t lower.todo).subperm
      rw [if_pos hcan, if_pos hcan, forall_mem_cons]
      obtain ⟨hlower', hwindow', hcalls⟩ := ih hcharged hwindow.discharge
      exact ⟨hlower', hwindow', hcheck, hwindow.safe_free, hcalls⟩
    · have hkept : Accounted table info allocated (todo ++ (kept ++ [t])) := by
        refine hwindow.subperm ?_
        rw [← append_assoc]
        exact (perm_append_singleton t (todo ++ kept)).subperm
      rw [if_neg hcan, if_neg hcan]
      obtain ⟨hlower', hwindow', hcalls⟩ := ih hlower hkept
      exact ⟨hlower', hwindow', hcheck, hcalls⟩

theorem accounted_compactFrom (hlower : AccountedWindow table info lower)
    (hwindows : ∀ window ∈ windows, AccountedWindow table info window) :
    (∀ window ∈ compactFrom table info lower windows, AccountedWindow table info window) ∧
    ∀ c ∈ compactFromCalls table info lower windows, Safe table info c := by
  induction windows generalizing lower with
  | nil =>
    exact ⟨fun window hwindow => mem_singleton.mp hwindow ▸ hlower, forall_mem_nil _⟩
  | cons window windows ih =>
    rw [forall_mem_cons] at hwindows
    have htodo : Accounted table info window.allocated (window.todo ++ []) := by
      rw [append_nil]
      exact hwindows.1
    obtain ⟨hlower', hwindow', hcalls⟩ := accounted_compactTodo hs hlower htodo
    obtain ⟨hrest, hrestCalls⟩ := ih hwindow' hwindows.2
    unfold compactFrom compactFromCalls
    rw [forall_mem_append]
    exact ⟨forall_mem_cons.mpr ⟨hlower', hrest⟩, hcalls, hrestCalls⟩

theorem accounted_compactWindows
    (hwindows : ∀ window ∈ windows, AccountedWindow table info window) :
    (∀ window ∈ compactWindows table info windows, AccountedWindow table info window) ∧
    ∀ c ∈ compactCalls table info windows, Safe table info c := by
  cases windows with
  | nil => exact ⟨forall_mem_nil _, forall_mem_nil _⟩
  | cons lower windows =>
    rw [forall_mem_cons] at hwindows
    exact accounted_compactFrom hs hwindows.1 hwindows.2

omit hs in
theorem of_findIdx? {p : WorkerRequest → Bool} {todo : List WorkerRequest} {tidx : Nat}
    {r : WorkerRequest} (hfind : todo.findIdx? p = some tidx) (hr : todo[tidx]? = some r) :
    p r = true := by
  obtain ⟨hlt, hp, -⟩ := findIdx?_eq_some_iff_getElem.mp hfind
  rw [getElem?_eq_getElem hlt] at hr
  exact some.inj hr ▸ hp

theorem accounted_readyWindow (rounds : Nat)
    (todo started : List WorkerRequest) (hactive : Accounted table info active (started ++ tasks)) :
    Accounted table info (readyWindow table info rounds active todo started).1
      ((readyWindow table info rounds active todo started).2.2 ++ tasks) ∧
    (readyWindow table info rounds active todo started).2.1.Sublist todo ∧
    ∀ c ∈ readyWindowCalls table info rounds active todo, Safe table info c := by
  induction rounds generalizing active todo started with
  | zero => exact ⟨hactive, .refl todo, forall_mem_nil _⟩
  | succ rounds ih =>
    have hcheck := hactive.safe_check hs
    unfold readyWindow readyWindowCalls
    rw [forall_mem_cons]
    cases hfind : todo.findIdx? fun r => isReady r && canHandle table info active r with
    | none => exact ⟨hactive, .refl todo, hcheck, forall_mem_nil _⟩
    | some tidx =>
      dsimp only
      cases hr : todo[tidx]? with
      | none => exact ⟨hactive, .refl todo, hcheck, forall_mem_nil _⟩
      | some r =>
        have hcan := (Bool.and_eq_true_iff.mp (of_findIdx? hfind hr)).2
        have hcharged := hactive.charge hs (hasRoom_of_canHandle hactive hs hcan)
        have hstarted : (started ++ [r] ++ tasks).Perm (r :: (started ++ tasks)) := by
          rw [append_assoc]
          exact perm_middle
        obtain ⟨hactive', hsub, hcalls⟩ :=
          ih (todo.eraseIdx tidx) (started ++ [r]) (hcharged.subperm hstarted.subperm)
        exact ⟨hactive', hsub.trans (eraseIdx_sublist todo tidx), hcheck, hcalls⟩

theorem accounted_readyLoop (started : List WorkerRequest)
    (hwindows : ∀ window ∈ windows, AccountedWindow table info window)
    (hactive : Accounted table info active (started ++ tasks)) :
    Accounted table info (readyLoop table info windows active started).active
      ((readyLoop table info windows active started).started ++ tasks) ∧
    ∀ window ∈ (readyLoop table info windows active started).windows,
      AccountedWindow table info window := by
  induction windows generalizing active started with
  | nil => exact ⟨hactive, forall_mem_nil _⟩
  | cons window windows ih =>
    rw [forall_mem_cons] at hwindows
    obtain ⟨hactive', hsub, -⟩ :=
      accounted_readyWindow hs window.todo.length window.todo started hactive
    unfold readyLoop
    split
    · next heq =>
      rw [heq] at hactive'
      exact ih _ hwindows.2 hactive'
    · next heq =>
      rw [heq] at hactive' hsub
      have hwindow := hwindows.1.subperm hsub.subperm
      exact ⟨hactive', forall_mem_cons.mpr ⟨hwindow, hwindows.2⟩⟩

theorem safe_readyCalls (hactive : Accounted table info active tasks) :
    ∀ c ∈ readyCalls table info windows active, Safe table info c := by
  induction windows generalizing active tasks with
  | nil => exact forall_mem_nil _
  | cons window windows ih =>
    obtain ⟨hactive', -, hcalls⟩ := accounted_readyWindow hs window.todo.length
      window.todo [] hactive
    unfold readyCalls
    rw [forall_mem_append]
    refine ⟨hcalls, ?_⟩
    split
    · next heq =>
      rw [heq] at hactive'
      exact ih hactive'
    · exact forall_mem_nil _

end Windows

/-! ### Steps of a worker -/

section Workers

variable {table : ResourceTable F} {w w' : SchedWorker F} {answered : List WorkerRequest}

variable (table w) in
/-- The records of a worker count its tasks. A request that was chosen to be prepared still has
room when it is charged, because tasks are only freed in between. -/
structure WorkerUsage : Prop where
  preparing : Accounted table w.info w.preparing (w.preparingTasks ++ w.waitingTasks)
  active : Accounted table w.info w.active (w.workingTasks ++ w.finishingTasks)
  activeWindows : ∀ window ∈ w.activeWindows, AccountedWindow table w.info window
  scheduledWindows : ∀ window ∈ w.scheduledWindows, AccountedWindow table w.info window
  starting : ∀ tidx, w.phase = .starting tidx → ∀ window ∈ w.activeWindows.head?,
    ∀ r ∈ window.todo[tidx]?, HasRoom table w.info w.preparing r

variable {l : List WorkerRequest} {i : Nat}

section Moves

variable {r : WorkerRequest} (h : l[i]? = some r) (m : List WorkerRequest)
include h

theorem perm_eraseIdx : (r :: (l.eraseIdx i ++ m)).Perm (l ++ m) := by
  obtain ⟨hi, rfl⟩ := List.getElem?_eq_some_iff.mp h
  exact (getElem_cons_eraseIdx_perm hi).append_right m

theorem perm_append_eraseIdx : (r :: (m ++ l.eraseIdx i)).Perm (m ++ l) :=
  ((perm_append_comm.cons r).trans (perm_eraseIdx h m)).trans perm_append_comm

/-- A task moves to the end of the other list. -/
theorem perm_move : (l.eraseIdx i ++ (m ++ [r])).Perm (l ++ m) := by
  rw [← append_assoc]
  exact (perm_append_singleton r _).trans (perm_eraseIdx h m)

end Moves

theorem info_stepped (h : Stepped table w w' answered) : w'.info = w.info := by
  cases h with
  | assignReady _ =>
    unfold assignReadyWork
    split <;> rfl
  | move | window | compact | pop | check | start | activatePrepared | wait | prepareFailed
  | activateWaiting | stay | respond | respondFailed | finish => rfl

/-- A task leaves the preparation and goes to work. -/
theorem WorkerUsage.activate {preparingTasks waitingTasks : List WorkerRequest} {r : WorkerRequest}
    (h : WorkerUsage table w) (hs : Sound table w.info)
    (hcan : canHandle table w.info w.active r = true)
    (htasks : (r :: (preparingTasks ++ waitingTasks)).Perm (w.preparingTasks ++ w.waitingTasks)) :
    WorkerUsage table ({ w with
      preparingTasks := preparingTasks, waitingTasks := waitingTasks }.activate table r) := by
  have hcharged := h.active.charge hs (hasRoom_of_canHandle h.active hs hcan)
  have hpreparing := h.preparing.subperm htasks.subperm
  refine ⟨hpreparing.discharge, hcharged.subperm ?_, h.activeWindows, h.scheduledWindows, ?_⟩
  · show (w.workingTasks ++ [r] ++ w.finishingTasks).Subperm _
    rw [append_assoc]
    exact perm_middle.subperm
  · intro tidx hphase window hwindow r' hr'
    exact (h.starting tidx hphase window hwindow r' hr').discharge hpreparing

theorem workerUsage_stepped (h : WorkerUsage table w) (hs : Sound table w.info)
    (hstep : Stepped table w w' answered) : WorkerUsage table w' := by
  cases hstep with
  | move phase enabled _ _ hother =>
    exact { h with starting := fun tidx htidx => absurd htidx (hother tidx) }
  | window phase window rest _ _ hother hwindows =>
    have hscheduled := h.scheduledWindows
    rw [hwindows, forall_mem_cons] at hscheduled
    refine ⟨h.preparing, h.active, ?_, hscheduled.2, fun tidx htidx => absurd htidx (hother tidx)⟩
    exact forall_mem_snoc h.activeWindows hscheduled.1
  | compact _ =>
    have hcompact := (accounted_compactWindows hs h.activeWindows).1
    exact { h with
      activeWindows := fun window hwindow => hcompact window (mem_of_mem_filter hwindow)
      starting := nofun }
  | assignReady _ =>
    unfold assignReadyWork
    split
    · exact { h with starting := nofun }
    · obtain ⟨hactive, hwindows⟩ := accounted_readyLoop hs [] h.activeWindows h.active
      refine ⟨h.preparing, hactive.subperm ?_, hwindows, h.scheduledWindows, nofun⟩
      rw [append_assoc]
      exact (perm_append_comm_assoc ..).subperm
  | pop window rest hphase hwindows _ =>
    have hactive := h.activeWindows
    rw [hwindows, forall_mem_cons] at hactive
    refine { h with activeWindows := hactive.2, starting := fun tidx htidx => ?_ }
    rw [hphase] at htidx
    cases htidx
  | check window rest tidx _ hwindows hfind =>
    refine { h with starting := ?_ }
    intro tidx' htidx window' hwindow' r hr
    obtain rfl : tidx = tidx' := by cases htidx; rfl
    have hhead : w.activeWindows.head? = some window' := hwindow'
    rw [hwindows] at hhead
    obtain rfl : window = window' := some.inj hhead
    exact hasRoom_of_canHandle h.preparing hs (of_findIdx? hfind hr)
  | start window rest tidx r hphase hwindows hr =>
    have hactive := h.activeWindows
    rw [hwindows, forall_mem_cons] at hactive
    have hroom : HasRoom table w.info w.preparing r := by
      refine h.starting tidx hphase window ?_ r hr
      rw [hwindows]
      rfl
    refine ⟨(h.preparing.charge hs hroom).subperm ?_, h.active, ?_, h.scheduledWindows, nofun⟩
    · rw [append_assoc]
      exact perm_middle.subperm
    · have hwindow := hactive.1.subperm (eraseIdx_sublist window.todo tidx).subperm
      exact forall_mem_cons.mpr ⟨hwindow, hactive.2⟩
  | activatePrepared i r hr hcan =>
    exact h.activate hs hcan (perm_eraseIdx hr w.waitingTasks)
  | wait i r hr =>
    exact { h with preparing := h.preparing.subperm (perm_move hr w.waitingTasks).subperm }
  | prepareFailed i r hr =>
    have hpreparing := h.preparing.subperm (perm_eraseIdx hr w.waitingTasks).subperm
    refine { h with preparing := hpreparing.discharge, starting := ?_ }
    intro tidx hphase window hwindow r' hr'
    exact (h.starting tidx hphase window hwindow r' hr').discharge hpreparing
  | activateWaiting i r hr hcan =>
    exact h.activate hs hcan (perm_append_eraseIdx hr w.preparingTasks)
  | stay => exact h
  | respond i r hr =>
    exact { h with active := h.active.subperm (perm_move hr w.finishingTasks).subperm }
  | respondFailed i r _ =>
    exact { h with }
  | finish i r hr =>
    have hactive := h.active.subperm (perm_append_eraseIdx hr w.workingTasks).subperm
    exact { h with active := hactive.discharge }

/-- The calls of the next step of a worker. -/
theorem safe_workerCalls (h : WorkerUsage table w) (hs : Sound table w.info) (e : WorkerEvent) :
    ∀ c ∈ w.calls table e, Safe table w.info c := by
  have hactivate : ∀ r tasks, (r :: tasks).Perm (w.preparingTasks ++ w.waitingTasks) →
      ∀ c ∈ w.activateCalls table r, Safe table w.info c := by
    intro r tasks htasks
    unfold activateCalls
    rw [forall_mem_cons]
    refine ⟨h.active.safe_check hs, ?_⟩
    split
    · exact fun c hc => mem_singleton.mp hc ▸ (h.preparing.subperm htasks.subperm).safe_free
    · exact forall_mem_nil _
  cases e with
  | compact => exact (accounted_compactWindows hs h.activeWindows).2
  | assignReady =>
    simp only [SchedWorker.calls]
    split
    · exact forall_mem_nil _
    · exact safe_readyCalls hs h.active
  | check => exact fun c hc => mem_singleton.mp hc ▸ h.preparing.safe_check hs
  | prepared i =>
    intro c hc
    obtain ⟨r, hr, hc⟩ := mem_flatMap.mp hc
    exact hactivate r _ (perm_eraseIdx (mem_toList.mp hr) _) c hc
  | wake i =>
    intro c hc
    obtain ⟨r, hr, hc⟩ := mem_flatMap.mp hc
    exact hactivate r _ (perm_append_eraseIdx (mem_toList.mp hr) _) c hc
  | prepareFailed i =>
    refine forall_mem_map.mpr fun r hr => ?_
    have htasks := perm_eraseIdx (mem_toList.mp hr) w.waitingTasks
    exact (h.preparing.subperm htasks.subperm).safe_free
  | finish i =>
    refine forall_mem_map.mpr fun r hr => ?_
    have htasks := perm_append_eraseIdx (mem_toList.mp hr) w.workingTasks
    exact (h.active.subperm htasks.subperm).safe_free
  | enter | requested | session | heartbeat | window | taskDone | start | respond
  | respondFailed => exact forall_mem_nil _

end Workers

/-! ### Steps of the system -/

section System

variable {srt : QueueSort} {table : ResourceTable F} {s s' : Sched F} {wid : WorkerID}
  {w w' : SchedWorker F} {ok : WorkerRequest → WorkerID → Option (Bool × Bool)}
  {arrange : WorkerRequest → Arrangement}

variable (table s) in
structure SystemUsage : Prop where
  workers : ∀ wid w, s.workers.get? wid = some w → Sound table w.info → WorkerUsage table w
  unsent : ∀ e ∈ s.unsent, ∀ w, s.workers.get? e.1 = some w → Sound table w.info →
    AccountedWindow table w.info e.2

section

variable (h : SystemUsage table s)
include h

theorem SystemUsage.congr (hworkers : s'.workers = s.workers)
    (hunsent : s'.unsent ⊆ s.unsent) : SystemUsage table s' := by
  constructor
  · rw [hworkers]
    exact h.workers
  · rw [hworkers]
    exact fun e he => h.unsent e (hunsent he)

theorem SystemUsage.setWorker (hw : s.workers.get? wid = some w)
    (w' : SchedWorker F) (hinfo : w'.info = w.info)
    (hw' : Sound table w.info → WorkerUsage table w → WorkerUsage table w') :
    SystemUsage table (s.setWorker wid w') := by
  constructor
  · refine Table.forall_insert (fun hs => ?_) h.workers
    rw [hinfo] at hs
    exact hw' hs (h.workers wid w hw hs)
  · intro e he x hx hs
    rcases Table.get?_insert_cases hx with ⟨hwid, rfl⟩ | ⟨-, hx⟩
    · rw [hinfo] at hs ⊢
      exact h.unsent e he w (hwid ▸ hw) hs
    · exact h.unsent e he x hx hs

theorem SystemUsage.accepted {m : Received}
    (haccept : Accepted srt s m s') : SystemUsage table s' := by
  cases haccept with
  | keep => exact h
  | disable wid w next hw _ =>
    refine (h.setWorker hw (w.goto (.awaiting next)) rfl fun _ hu => ?_).congr rfl fun _ => id
    exact { hu with starting := nofun }
  | rm | schedule | window | initWait => exact h.congr rfl fun _ => id

theorem SystemUsage.disableWorker : SystemUsage table (s.disableWorker srt wid) := by
  rcases disableWorker_cases srt s wid with heq | ⟨w, next, hw, -, heq⟩
  · rw [heq]
    exact h
  · rw [heq]
    refine (h.setWorker hw (w.disabled next) rfl fun _ hu => ?_).congr rfl fun _ => id
    refine { hu with activeWindows := forall_mem_nil _, starting := ?_ }
    intro tidx htidx
    cases next <;> cases htidx

end

variable (table s) in
/-- What holds of the open windows in a pass. -/
def OpenUsage (i : Nat) (window : SchedWindow F) : Prop :=
  ∀ wid w, s.openWindows[i]? = some wid → s.workers.get? wid = some w → Sound table w.info →
    AccountedWindow table w.info window

theorem openUsage_new (i : Nat) : OpenUsage table s i ⟨newActiveResources, []⟩ :=
  fun _ _ _ _ _ => accounted_new

theorem openUsage_assign : AssignKeeps (s.pass table ok arrange) (OpenUsage table s) := by
  intro task i wid worker window hopen hworker hcan h
  obtain ⟨w, hw, -, rfl⟩ := worker_of_pass hworker
  intro wid' w' hopen' hw' hs
  obtain rfl : wid = wid' := mem_unique hopen hopen'
  obtain rfl : w = w' := mem_unique hw hw'
  have hwindow := h wid w hopen hw hs
  have hcharged := hwindow.charge hs (hasRoom_of_canHandle hwindow hs hcan)
  exact hcharged.subperm (perm_append_singleton task window.todo).subperm

section

variable (h : SystemUsage table s)
include h

theorem SystemUsage.trySched : SystemUsage table (s.trySched srt (s.pass table ok arrange)) := by
  refine ⟨h.workers, fun e he w hw hs => ?_⟩
  obtain ⟨i, hi⟩ := mem_iff_getElem?.mp (mem_of_mem_filter he)
  obtain ⟨hopen, hwindow⟩ := getElem?_zip_eq_some.mp hi
  have hall := trySched_forall (p := s.pass table ok arrange) openUsage_assign openUsage_new srt
    s.queue
  exact hall i e.2 hwindow e.1 w hopen hw hs

theorem SystemUsage.deliver {window : SchedWindow F} {rest : List (WorkerID × SchedWindow F)}
    (hphase : s.phase = .deliver ((wid, window) :: rest)) :
    SystemUsage table ((s.sendWindow wid window).setPhase (.deliver rest)) := by
  have hunsent : s.unsent = (wid, window) :: rest := by rw [Sched.unsent, hphase]
  have hrest : rest ⊆ s.unsent := by
    rw [hunsent]
    exact subset_cons_self _ _
  rcases sendWindow_cases s wid window with heq | ⟨w, hw, heq⟩
  · rw [heq]
    exact h.congr rfl hrest
  · rw [heq]
    refine (h.setWorker hw (w.send window) rfl fun hs hu => ?_).congr rfl hrest
    refine { hu with scheduledWindows := ?_ }
    have hwindow := h.unsent (wid, window) (by rw [hunsent]; exact mem_cons_self) w hw hs
    exact forall_mem_snoc hu.scheduledWindows hwindow

theorem systemUsage_step {e : SchedEvent F}
    (hstep : SchedStepped srt table s e s') : SystemUsage table s' := by
  cases hstep with
  | add wid info hlocked _ =>
    constructor
    · exact Table.forall_insert (fun _ =>
        ⟨accounted_new, accounted_new, forall_mem_nil _, forall_mem_nil _, nofun⟩) h.workers
    · show ∀ e ∈ s.unsent, _
      rw [unsent_of_unlocked hlocked]
      exact forall_mem_nil _
  | present wid info => exact h
  | begin m t hphase haccept hgo | gather m t toDisable hphase haccept =>
    exact (h.accepted haccept).congr rfl (nil_subset _)
  | pass m t _ haccept _ => exact h.accepted haccept
  | endGather toDisable _ =>
    have hall : SystemUsage table (toDisable.foldl (Sched.disableWorker srt) s) :=
      foldlRecOn toDisable _ h fun _ ht _ _ => ht.disableWorker
    exact hall.congr rfl (nil_subset _)
  | assign ok arrange _ => exact h.trySched
  | deliver wid window rest hphase => exact h.deliver hphase
  | delivered _ => exact h.congr rfl (nil_subset _)
  | request wid w hw _ =>
    refine (h.setWorker hw { w with windowsRequested := w.windowsRequested + 1 } rfl
      fun _ hu => ?_).congr rfl fun _ => id
    exact { hu with }
  | worker wid e w w' answered hw hstepped =>
    exact (h.setWorker hw w' (info_stepped hstepped) fun hs hu =>
      workerUsage_stepped hu hs hstepped).congr rfl fun _ => id
  | remove wid w hw _ _ =>
    refine h.setWorker hw _ rfl fun _ hu => ?_
    exact { hu with starting := nofun }

theorem SystemUsage.accounted_records (hw : s.workers.get? wid = some w) (hs : Sound table w.info) :
    ∀ a ∈ s.records wid w, ∃ tasks, Accounted table w.info a tasks := by
  have hu := h.workers wid w hw hs
  unfold Sched.records
  rw [forall_mem_cons, forall_mem_cons, List.forall_mem_map, forall_mem_append,
    forall_mem_append]
  refine ⟨⟨_, hu.preparing⟩, ⟨_, hu.active⟩, ⟨fun window hwindow => ⟨_, hu.activeWindows _ hwindow⟩,
    fun window hwindow => ⟨_, hu.scheduledWindows _ hwindow⟩⟩, fun window hwindow => ?_⟩
  obtain ⟨e, he, rfl⟩ := mem_map.mp hwindow
  obtain ⟨hunsent, hwid⟩ := mem_filter.mp he
  rw [← of_decide_eq_true hwid] at hw
  exact ⟨_, h.unsent e hunsent w hw hs⟩

end

/-! ### Workers that are added -/

section Added

variable {P : WorkerInfo F → Prop}

/-- What holds of every worker. -/
def Informed (P : WorkerInfo F → Prop) (s : Sched F) : Prop :=
  ∀ wid w, s.workers.get? wid = some w → P w.info

/-- A worker that is added has the property. -/
def Adds (P : WorkerInfo F → Prop) : SchedEvent F → Prop
  | .add _ info => P info
  | _ => True

section

omit [Float64 F]

theorem Informed.setWorker (h : Informed P s) (w' : SchedWorker F) (hw' : P w'.info) :
    Informed P (s.setWorker wid w') :=
  Table.forall_insert hw' h

theorem Informed.accepted {m : Received} (h : Informed P s) (haccept : Accepted srt s m s') :
    Informed P s' := by
  cases haccept with
  | disable wid w next hw _ => exact h.setWorker (w.goto (.awaiting next)) (h wid w hw)
  | keep | rm | schedule | window | initWait => exact h

theorem Informed.disableWorker (h : Informed P s) : Informed P (s.disableWorker srt wid) := by
  rcases disableWorker_cases srt s wid with heq | ⟨w, next, hw, -, heq⟩
  · rw [heq]
    exact h
  · rw [heq]
    exact h.setWorker (w.disabled next) (h wid w hw)

end

/-- A worker keeps the information it was added with. -/
theorem informed_step {e : SchedEvent F} (h : Informed P s)
    (hadd : Adds P e) (hstep : SchedStepped srt table s e s') : Informed P s' := by
  cases hstep with
  | add wid info _ _ => exact h.setWorker (newSchedWorker info) hadd
  | begin m t hphase haccept hgo | gather m t toDisable hphase haccept =>
    have ht := h.accepted haccept
    exact ht
  | pass m t _ haccept _ => exact h.accepted haccept
  | endGather toDisable _ =>
    exact foldlRecOn toDisable (Sched.disableWorker srt) h fun _ ht _ _ => ht.disableWorker
  | deliver wid window rest _ =>
    rcases sendWindow_cases s wid window with heq | ⟨w, hw, heq⟩
    · rw [heq]
      exact h
    · rw [heq]
      exact h.setWorker (w.send window) (h wid w hw)
  | request wid w hw _ =>
    exact h.setWorker { w with windowsRequested := w.windowsRequested + 1 } (h wid w hw)
  | worker wid e w w' answered hw hstepped =>
    exact h.setWorker w' (info_stepped hstepped ▸ h wid w hw)
  | remove wid w hw _ _ => exact h.setWorker (w.goto .gone) (h wid w hw)
  | present | assign | delivered => exact h

theorem informed_run {events : List (SchedEvent F)} {states : List (Sched F)}
    (hrun : trace (Sched.step srt table) (newSched F) events = some states)
    (hadd : ∀ e ∈ events, Adds P e) : ∀ s ∈ states, Informed P s := by
  have hstart : Informed P (newSched F) := fun wid w hw => nomatch hw
  have hguard : Guarded (Sched.step srt table) (fun _ e => Adds P e) (newSched F) events :=
    guarded_of_forall (fun e he _ => hadd e he) _
  exact trace_forall_guarded (fun s e s' (h : Informed P s) hadd hstep =>
    informed_step h hadd (schedStepped_of_step hstep)) hstart hrun hguard

end Added

/-! ### Calls -/

theorem safe_checks {windows : List (SchedWindow F)}
    (h : ∀ i window, windows[i]? = some window → OpenUsage table s i window) :
    ∀ c ∈ (s.pass table ok arrange).checks windows, Sound table c.1 → Safe table c.1 c.2 := by
  intro c hc hs
  obtain ⟨e, he, hc⟩ := mem_flatMap.mp hc
  obtain ⟨i, hi⟩ := mem_iff_getElem?.mp he
  obtain ⟨hopen, hwindow⟩ := getElem?_zip_eq_some.mp hi
  split at hc
  · cases hc
  next worker hworker =>
  obtain ⟨w, hw, -, rfl⟩ := worker_of_pass hworker
  rcases mem_cons.mp hc with rfl | hc
  · exact accounted_new.safe_check hs
  · obtain rfl := mem_singleton.mp hc
    exact (h i e.2 hwindow e.1 w hopen hw hs).safe_check hs

theorem safe_assignCalls {l : List (WorkerRequest × Nat)} {out : Assigned F}
    (h : ∀ i window, out.windows[i]? = some window → OpenUsage table s i window) :
    ∀ c ∈ (s.pass table ok arrange).assignCalls l out, Sound table c.1 → Safe table c.1 c.2 := by
  induction l generalizing out with
  | nil => exact forall_mem_nil _
  | cons task rest ih =>
    unfold Pass.assignCalls
    rw [forall_mem_append]
    exact ⟨safe_checks h, ih (assignLoop_forall openUsage_assign h)⟩

theorem safe_calls (h : SystemUsage table s) (e : SchedEvent F) :
    ∀ c ∈ s.calls table e, Sound table c.1 → Safe table c.1 c.2 := by
  cases e with
  | assign ok arrange =>
    refine safe_assignCalls fun i window hwindow => ?_
    unfold Pass.emptyWindows at hwindow
    rw [getElem?_map] at hwindow
    obtain ⟨_, _, rfl⟩ := map_eq_some_iff.mp hwindow
    exact openUsage_new i
  | worker wid e =>
    intro c hc hs
    simp only [Sched.calls] at hc
    split at hc
    · cases hc
    next w hw =>
    obtain ⟨c', hc', rfl⟩ := mem_map.mp hc
    exact safe_workerCalls (h.workers wid w hw hs) hs e c' hc'
  | add | receive | endGather | deliver | request | remove => exact forall_mem_nil _

end System

end UsageLemmas

open UsageLemmas SchedLemmas in
/-- In every run and for every worker that counts its resources, its records are within them in
every state, and so are the records of the calls of every next step, which do not wrap around, if
the sums of the needs of a task do not. -/
theorem usage_within (srt : QueueSort) (table : ResourceTable F) {events : List (SchedEvent F)}
    {states : List (Sched F)}
    (hrun : trace (Sched.step srt table) (newSched F) events = some states) :
    ∀ s ∈ states,
      (∀ wid w, s.workers.get? wid = some w → Metered w.info → NoWrap table w.info.resources →
        ∀ a ∈ s.records wid w, a.Within table w.info.resources) ∧
      ∀ e, ∀ c ∈ s.calls table e, Metered c.1 → NoWrap table c.1.resources →
        c.2.record.Within table c.1.resources ∧ c.2.Exact table c.1 := by
  have hstart : SystemUsage table (newSched F) := ⟨nofun, forall_mem_nil _⟩
  have hall := trace_forall (fun s e s' (h : SystemUsage table s) hstep =>
    systemUsage_step h (schedStepped_of_step hstep)) hstart hrun
  intro s hs
  have husage := hall s hs
  refine ⟨fun wid w hw hmetered hwrap a ha => ?_, fun e c hc hmetered hwrap =>
    safe_calls husage e c hc ⟨hmetered, hwrap⟩⟩
  exact (husage.accounted_records hw ⟨hmetered, hwrap⟩ a ha).choose_spec.within

/-- A worker with some memory, and a table that needs a part of it for every task. -/
def meteredWorker : WorkerInfo ℚ := ⟨false, ⟨8, 1, 8, 0, 4, 0, fun _ => none⟩⟩

def smallTasks : ResourceTable ℚ := fun _ => some ⟨2, 3, 0, 1, 0, 1, 1⟩

theorem noWrap_small : NoWrap smallTasks meteredWorker.resources := by
  have hspec : ∀ tt, meteredWorker.resources.resourceSpec smallTasks tt =
      ⟨2, 3, 0, 1, 0, 1, 1⟩ := fun _ => rfl
  constructor
  · decide
  all_goals
    intro tt
    rw [hspec]
    decide

open UsageLemmas in
theorem usage_within_worked :
    ∃ states, trace (Sched.step stableQueue smallTasks) (newSched ℚ)
        (sendRequest meteredWorker ++ workOnRequest) = some states ∧
      ∃ s ∈ states, ∃ w ∈ s.workers.get? 0, w.active.memUsedMin = 2 ∧
        (Metered w.info ∧ NoWrap smallTasks w.info.resources) ∧
        ∀ a ∈ s.records 0 w, a.Within smallTasks w.info.resources := by
  refine exists_trace_imp (p := fun states => ∃ s ∈ states, ∃ w ∈ s.workers.get? 0,
    w.active.memUsedMin = 2) (by decide +kernel) ?_
  rintro states hrun ⟨s, hs, w, hw, hused⟩
  have hadd : ∀ e ∈ sendRequest meteredWorker ++ workOnRequest, Adds (· = meteredWorker) e := by
    simp only [sendRequest, startWorker, restOfIteration, workOnRequest, forall_mem_append,
      forall_mem_cons]
    exact ⟨by simp [Adds], by simp [Adds]⟩
  have hinfo : w.info = meteredWorker := informed_run hrun hadd s hs 0 w hw
  have hmetered : Metered w.info := by
    rw [hinfo]
    exact ⟨rfl, by decide⟩
  have hwrap : NoWrap smallTasks w.info.resources := by
    rw [hinfo]
    exact noWrap_small
  exact ⟨s, hs, w, hw, hused, ⟨hmetered, hwrap⟩,
    (usage_within stableQueue smallTasks hrun s hs).1 0 w hw hmetered hwrap⟩

/-- The environment of the worker sets `MIN_MEMORY` to the largest number, and with
`BASE_MIN_MEMORY` the sum is small. -/
def overflowingWorker : WorkerInfo ℚ :=
  ⟨false, ⟨8192, 1024, 0, 0, 4, 0, fun _ => some ⟨18446744073709551615, 2048, 0, 1, 0, 2048, 0⟩⟩⟩

/-- The task is charged to the worker, which does not have the memory, and the next check wraps
around. -/
theorem minMemory_wraps :
    ∃ states, trace (Sched.step stableQueue fun _ => none) (newSched ℚ)
        (sendRequest overflowingWorker ++ workOnRequest) = some states ∧
      ∃ s ∈ states, ∃ w ∈ s.workers.get? 0, Metered w.info ∧
        (∃ a ∈ s.records 0 w, ¬a.Within (fun _ => none) w.info.resources) ∧
        ∃ c ∈ s.calls (fun _ => none) (.worker 0 .check), ¬c.2.Exact (fun _ => none) c.1 := by
  refine exists_trace_imp (p := fun states => ∃ s ∈ states, ∃ w ∈ s.workers.get? 0,
    Metered w.info ∧
      (∃ a ∈ s.records 0 w, w.info.resources.memPhysical.toNat < a.memUsedMin.toNat) ∧
      ∃ c ∈ s.calls (fun _ => none) (.worker 0 .check), ¬c.2.Exact (fun _ => none) c.1)
    (by decide +kernel) ?_
  rintro states - ⟨s, hs, w, hw, hmetered, ⟨a, ha, hused⟩, hcall⟩
  exact ⟨s, hs, w, hw, hmetered,
    ⟨a, ha, fun hwithin => Nat.not_le_of_lt hused hwithin.memUsedMin⟩, hcall⟩

end OpenDsn.Sealer
