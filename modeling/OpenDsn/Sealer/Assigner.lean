import OpenDsn.Lib.Table
import OpenDsn.Sealer.Resources

/-!
# Assignment of requests to windows

`storage/sealer/sched_assigner_common.go` and `sched_assigner_utilization.go`. A worker opens
windows, and a pass of the scheduler puts requests of the queue in them: a request goes to the
acceptable window whose worker is used least. The requests that were put in a window are removed
from the queue by their indexes, the highest first, and every removal sorts the queue again.

* `trySched`: a pass;
* `trySched_partition_iff`: whatever the sort is, a pass leaves every request in the queue or in
  one window, exactly when no request that stays in the queue compares equal to one that is
  assigned, other than the last of these;
* `equal_request_lost`: of two requests that compare equal one is assigned, and the other lost.
-/

namespace OpenDsn.Sealer

open Lib Float64 List Option

/-- `storiface.WorkerID`, the session of a worker. -/
abbrev WorkerID := Nat

structure SchedWindow (F : Type) where
  allocated : ActiveResources F
  todo : List WorkerRequest

structure WorkerHandle (F : Type) where
  info : WorkerInfo F
  preparing : ActiveResources F
  active : ActiveResources F
  activeWindows : List (SchedWindow F)
  enabled : Bool

variable {F : Type} [Float64 F] {Q : Nat → SchedWindow F → Prop} {windows : List (SchedWindow F)}
  {workerUtil : Table WorkerID F}

def WorkerHandle.utilization (w : WorkerHandle F) : F :=
  w.activeWindows.foldl
    (fun u window => Float64.add u (window.allocated.utilization w.info.resources))
    (Float64.add (w.active.utilization w.info.resources)
      (w.preparing.utilization w.info.resources))

/-- What a pass reads beside the queue. -/
structure Pass (F : Type) where
  /-- The workers of the open windows. -/
  openWindows : List WorkerID
  workers : WorkerID → Option (WorkerHandle F)
  /-- The default table of resources. -/
  table : ResourceTable F
  /-- `Sel.Ok` of a request: whether the worker is acceptable, and whether it is preferred. -/
  ok : WorkerRequest → WorkerID → Option (Bool × Bool)
  /-- The order of the acceptable windows of a request: a shuffle, and a sort with `Sel.Cmp`. -/
  arrange : WorkerRequest → Arrangement

/-- A window is added to the acceptable ones of the task, or not. When the first preferred worker
is found, the windows before it are dropped. -/
def Pass.consider (p : Pass F) (task : WorkerRequest) (found : Bool × List Nat)
    (window : WorkerID × Nat) : Bool × List Nat :=
  match p.workers window.1 with
  | none => found
  | some worker =>
      let needRes := worker.info.resources.resourceSpec p.table task.sealTask
      if worker.enabled = false then found
      else if newActiveResources.canHandleRequest task.sealTask needRes worker.info = false then
        found
      else
        match p.ok task window.1 with
        | none => found
        | some (ok, preferred) =>
            if ok = false then found
            else if found.1 ∧ preferred = false then found
            else if preferred ∧ found.1 = false then (true, [window.2])
            else (found.1, found.2 ++ [window.2])

def Pass.acceptableWindows (p : Pass F) (task : WorkerRequest) : List Nat :=
  (p.arrange task).arrange (p.openWindows.zipIdx.foldl (p.consider task) (false, [])).2

/-- The best window so far, with its worker. -/
structure Selected (F : Type) where
  window : Nat
  wid : WorkerID
  worker : WorkerHandle F

/-- `w.Utilization()`, which is kept in a map. -/
def utilizationOf (workerUtil : Table WorkerID F) (wid : WorkerID) (worker : WorkerHandle F) :
    F × Table WorkerID F :=
  match workerUtil.get? wid with
  | some wu => (wu, workerUtil)
  | none => (worker.utilization, workerUtil.insert wid worker.utilization)

/-- The loop over the acceptable windows of a task. -/
def Pass.selectWindow (p : Pass F) (task : WorkerRequest) (windows : List (SchedWindow F)) :
    List Nat → Table WorkerID F → Option (Selected F) → F → Option (Selected F) × Table WorkerID F
  | [], workerUtil, best, _ => (best, workerUtil)
  | wnd :: rest, workerUtil, best, bestUtilization =>
      match p.openWindows[wnd]?, windows[wnd]? with
      | some wid, some window =>
          match p.workers wid with
          | none => p.selectWindow task windows rest workerUtil best bestUtilization
          | some worker =>
              let res := worker.info.resources.resourceSpec p.table task.sealTask
              if window.allocated.canHandleRequest task.sealTask res worker.info = false then
                p.selectWindow task windows rest workerUtil best bestUtilization
              else
                match utilizationOf workerUtil wid worker with
                | (wu, workerUtil) =>
                    -- the loop ends with the first worker that is not better
                    if ge wu bestUtilization then (best, workerUtil)
                    else p.selectWindow task windows rest workerUtil (some ⟨wnd, wid, worker⟩) wu
      | _, _ => p.selectWindow task windows rest workerUtil best bestUtilization

structure Assigned (F : Type) where
  windows : List (SchedWindow F)
  workerUtil : Table WorkerID F
  /-- The indexes of the requests that are assigned. -/
  rmQueue : List Nat

/-- `Add` to the window, and to its `Todo`. -/
def SchedWindow.assign (window : SchedWindow F) (task : WorkerRequest) (wr : WorkerResources F)
    (res : Resources F) : SchedWindow F :=
  ⟨window.allocated.add task.sealTask wr res, window.todo ++ [task]⟩

/-- The request is put in the window that was selected. -/
def Pass.assign (p : Pass F) (s : Assigned F) (task : WorkerRequest) (sqi : Nat)
    (best : Selected F) (workerUtil : Table WorkerID F) : Assigned F :=
  let wr := best.worker.info.resources
  let res := wr.resourceSpec p.table task.sealTask
  let diff :=
    match s.windows[best.window]? with
    | none => ofNat 0
    | some window => sub ((window.assign task wr res).allocated.utilization wr)
        (window.allocated.utilization wr)
  { windows := s.windows.modify best.window fun window => window.assign task wr res
    workerUtil := workerUtil.insert best.wid
      (Float64.add ((workerUtil.get? best.wid).getD (ofNat 0)) diff)
    rmQueue := s.rmQueue ++ [sqi] }

/-- The loop over the queue. -/
def Pass.assignLoop (p : Pass F) : List (WorkerRequest × Nat) → Assigned F → Assigned F
  | [], s => s
  | (task, sqi) :: rest, s =>
      match p.selectWindow task s.windows (p.acceptableWindows task) s.workerUtil none
        maxFloat64 with
      | (none, workerUtil) => p.assignLoop rest { s with workerUtil := workerUtil }
      | (some best, workerUtil) => p.assignLoop rest (p.assign s task sqi best workerUtil)

/-- The windows before the pass. -/
def Pass.emptyWindows (p : Pass F) : List (SchedWindow F) :=
  p.openWindows.map fun _ => ⟨newActiveResources, []⟩

/-- The queue and the windows after `LowestUtilizationWS`. -/
def lowestUtilizationWS (srt : QueueSort) (p : Pass F) (q : List WorkerRequest) :
    List WorkerRequest × List (SchedWindow F) :=
  let s := p.assignLoop q.zipIdx ⟨p.emptyWindows, ∅, []⟩
  (srt.removeAll q s.rmQueue, s.windows)

/-- A pass of the scheduler, up to the submission of the windows. -/
def trySched (srt : QueueSort) (p : Pass F) (q : List WorkerRequest) :
    List WorkerRequest × List (SchedWindow F) :=
  if p.openWindows.length = 0 ∨ q.length = 0 then (q, p.emptyWindows)
  else lowestUtilizationWS srt p q

/-- The requests in the windows. -/
def todos (windows : List (SchedWindow F)) : List WorkerRequest := windows.flatMap (·.todo)

/-- Every request of the queue is in one place: still in the queue, or in one window. -/
def Partitioned (q : List WorkerRequest) (out : List WorkerRequest × List (SchedWindow F)) : Prop :=
  ∀ r ∈ q, (out.1 ++ todos out.2).count r = 1

/-- What the loop over the queue assigns. -/
def Pass.assigned (p : Pass F) (q : List WorkerRequest) : Assigned F :=
  if p.openWindows.length = 0 ∨ q.length = 0 then ⟨p.emptyWindows, ∅, []⟩
  else p.assignLoop q.zipIdx ⟨p.emptyWindows, ∅, []⟩

/-- What compares equal to a request that is assigned, other than the last of these, is assigned as
well. -/
def Untied (p : Pass F) (q : List WorkerRequest) : Prop :=
  ∀ i ∈ (p.assigned q).rmQueue, (∃ j ∈ (p.assigned q).rmQueue, i < j) →
    ∀ y ∈ q[i]?, ∀ x ∈ q, x.less y = false → y.less x = false → x ∈ todos (p.assigned q).windows

instance (p : Pass F) (q : List WorkerRequest) : Decidable (Untied p q) :=
  inferInstanceAs (Decidable (∀ i ∈ (p.assigned q).rmQueue, _))

/-- A worker that has nothing to do and does not look at its resources. -/
def idleWorker : WorkerHandle F where
  info := ⟨true, ⟨1, 0, 0, 0, 1, 0, fun _ => none⟩⟩
  preparing := newActiveResources
  active := newActiveResources
  activeWindows := []
  enabled := true

/-- One window of such a worker, which is acceptable for some of the requests. -/
def onePass (chosen : WorkerRequest → Bool) : Pass F where
  openWindows := [0]
  workers := fun _ => some idleWorker
  table := fun _ => none
  ok := fun r _ => some (chosen r, false)
  arrange := fun _ => Arrangement.listed

namespace AssignerLemmas

open WorkerRequest Pass

/-! ### What is assigned -/

section Picked

variable {p : Pass F} {l : List (WorkerRequest × Nat)} {s : Assigned F}

/-- A window that is selected is one of the open windows, its worker is there, and the window
can take the task. -/
def Fits (p : Pass F) (task : WorkerRequest) (windows : List (SchedWindow F)) (best : Selected F) :
    Prop :=
  p.openWindows[best.window]? = some best.wid ∧ p.workers best.wid = some best.worker ∧
    ∃ window, windows[best.window]? = some window ∧
      window.allocated.canHandleRequest task.sealTask
        (best.worker.info.resources.resourceSpec p.table task.sealTask) best.worker.info = true

theorem selectWindow_fits {task : WorkerRequest}
    {acceptable : List Nat} {best : Option (Selected F)}
    {bestUtilization : F} (hbest : ∀ b ∈ best, Fits p task windows b) :
    ∀ b ∈ (p.selectWindow task windows acceptable workerUtil best bestUtilization).1,
      Fits p task windows b := by
  induction acceptable generalizing workerUtil best bestUtilization with
  | nil => exact hbest
  | cons wnd rest ih =>
    unfold selectWindow
    split
    · next wid window hopen hwindow =>
      split
      · exact ih hbest
      · next worker hworker =>
        dsimp only
        split
        · exact ih hbest
        · next hcan =>
          split
          · exact hbest
          · refine ih fun b hb => ?_
            obtain rfl := some.inj hb
            exact ⟨hopen, hworker, window, hwindow, Bool.eq_true_of_not_eq_false hcan⟩
    · exact ih hbest

/-- One round of the loop: the request is passed over, or put in a window it fits in. -/
theorem assignLoop_cons (task : WorkerRequest) (sqi : Nat) (rest : List (WorkerRequest × Nat))
    (s : Assigned F) :
    (∃ workerUtil, p.assignLoop ((task, sqi) :: rest) s =
      p.assignLoop rest { s with workerUtil := workerUtil }) ∨
    (∃ best workerUtil, Fits p task s.windows best ∧ p.assignLoop ((task, sqi) :: rest) s =
      p.assignLoop rest (p.assign s task sqi best workerUtil)) := by
  dsimp only [assignLoop]
  split
  · next workerUtil _ => exact .inl ⟨workerUtil, rfl⟩
  · next best workerUtil hselect =>
    have hnone : ∀ b ∈ (none : Option (Selected F)), Fits p task s.windows b := nofun
    exact .inr ⟨best, workerUtil, selectWindow_fits hnone best (by rw [hselect]; rfl), rfl⟩

theorem todos_modify {i : Nat} (hi : i < windows.length)
    (task : WorkerRequest) (wr : WorkerResources F) (res : Resources F) :
    (todos (windows.modify i fun window => window.assign task wr res)).Perm
      (todos windows ++ [task]) := by
  induction windows generalizing i with
  | nil => exact absurd hi (Nat.not_lt_zero i)
  | cons window windows ih =>
    unfold todos at ih ⊢
    cases i with
    | zero =>
      rw [modify_zero_cons, flatMap_cons, flatMap_cons]
      dsimp only [SchedWindow.assign]
      rw [append_assoc, append_assoc]
      exact perm_append_comm.append_left _
    | succ i =>
      rw [modify_succ_cons, flatMap_cons, flatMap_cons, append_assoc]
      exact (ih (Nat.lt_of_succ_lt_succ hi)).append_left _

/-- The requests of the list that the loop assigns: their indexes are in `rmQueue`, and they are
in the windows. -/
theorem assignLoop_picked : ∃ picked : List (WorkerRequest × Nat), picked.Sublist l ∧
      (p.assignLoop l s).rmQueue = s.rmQueue ++ picked.map Prod.snd ∧
      (todos (p.assignLoop l s).windows).Perm (todos s.windows ++ picked.map Prod.fst) := by
  induction l generalizing s with
  | nil => exact ⟨[], .refl [], (append_nil _).symm, .of_eq (append_nil _).symm⟩
  | cons head rest ih =>
    obtain ⟨task, sqi⟩ := head
    rcases assignLoop_cons task sqi rest s with
      ⟨workerUtil, heq⟩ | ⟨best, workerUtil, ⟨-, -, window, hwindow, -⟩, heq⟩
    · obtain ⟨picked, hsub, hrm, htodo⟩ := ih (s := { s with workerUtil := workerUtil })
      rw [heq]
      exact ⟨picked, hsub.cons _, hrm, htodo⟩
    · have hlt : best.window < s.windows.length := (List.getElem?_eq_some_iff.mp hwindow).choose
      obtain ⟨picked, hsub, hrm, htodo⟩ := ih (s := p.assign s task sqi best workerUtil)
      rw [heq]
      refine ⟨(task, sqi) :: picked, hsub.cons_cons _, ?_, ?_⟩
      · rw [hrm]
        simp only [assign, map_cons, append_assoc, singleton_append]
      · have hassign : (todos (p.assign s task sqi best workerUtil).windows).Perm
            (todos s.windows ++ [task]) := todos_modify hlt _ _ _
        refine htodo.trans ((hassign.append_right _).trans ?_)
        rw [append_assoc, map_cons, singleton_append]

theorem todos_emptyWindows : todos p.emptyWindows = [] := by
  unfold todos emptyWindows
  simp

theorem length_assignLoop : (p.assignLoop l s).windows.length = s.windows.length := by
  induction l generalizing s with
  | nil => rfl
  | cons head rest ih =>
    rcases assignLoop_cons head.1 head.2 rest s with ⟨_, heq⟩ | ⟨_, _, _, heq⟩
    · rw [heq, ih]
    · rw [heq, ih]
      exact length_modify ..

/-- A request that fits is put in the window of an index, and the window keeps a property. -/
def AssignKeeps (p : Pass F) (Q : Nat → SchedWindow F → Prop) : Prop :=
  ∀ task i wid worker window, p.openWindows[i]? = some wid → p.workers wid = some worker →
    window.allocated.canHandleRequest task.sealTask
      (worker.info.resources.resourceSpec p.table task.sealTask) worker.info = true →
    Q i window → Q i (window.assign task worker.info.resources
      (worker.info.resources.resourceSpec p.table task.sealTask))

theorem assignLoop_forall (hassign : AssignKeeps p Q)
    (hs : ∀ i window, s.windows[i]? = some window → Q i window) :
    ∀ i window, (p.assignLoop l s).windows[i]? = some window → Q i window := by
  induction l generalizing s with
  | nil => exact hs
  | cons head rest ih =>
    rcases assignLoop_cons head.1 head.2 rest s with
      ⟨_, heq⟩ | ⟨best, workerUtil, ⟨hopen, hworker, window, hwindow, hcan⟩, heq⟩
    · rw [heq]
      exact ih hs
    · rw [heq]
      refine ih fun i window' hwindow' => ?_
      dsimp only [assign] at hwindow'
      rw [getElem?_modify] at hwindow'
      split at hwindow'
      · next hi =>
        subst hi
        rw [hwindow] at hwindow'
        obtain rfl := some.inj hwindow'
        exact hassign head.1 _ _ _ _ hopen hworker hcan (hs _ window hwindow)
      · exact hs i window' (by simpa using hwindow')

theorem trySched_forall (hassign : AssignKeeps p Q)
    (hnew : ∀ i, Q i ⟨newActiveResources, []⟩) (srt : QueueSort) (q : List WorkerRequest) :
    ∀ i window, (trySched srt p q).2[i]? = some window → Q i window := by
  have hempty : ∀ i window, p.emptyWindows[i]? = some window → Q i window := by
    intro i window hwindow
    unfold emptyWindows at hwindow
    rw [getElem?_map] at hwindow
    obtain ⟨_, _, rfl⟩ := map_eq_some_iff.mp hwindow
    exact hnew i
  unfold trySched
  split
  · exact hempty
  · exact assignLoop_forall hassign hempty

theorem length_trySched (srt : QueueSort) (q : List WorkerRequest) :
    (trySched srt p q).2.length = p.openWindows.length := by
  have hempty : p.emptyWindows.length = p.openWindows.length := length_map _
  unfold trySched
  split
  · exact hempty
  · exact length_assignLoop.trans hempty

end Picked

/-! ### Ties -/

section Ties

variable (srt : QueueSort) (p : Pass F) (q : RequestQueue)

theorem trySched_eq (q : List WorkerRequest) :
    trySched srt p q = (srt.removeAll q (p.assigned q).rmQueue, (p.assigned q).windows) := by
  unfold trySched Pass.assigned
  split <;> rfl

/-- The requests that are assigned, with their indexes. -/
theorem assigned_picked (q : List WorkerRequest) :
    ∃ picked : List (WorkerRequest × Nat), picked.Sublist q.zipIdx ∧
      (p.assigned q).rmQueue = picked.map Prod.snd ∧
      (todos (p.assigned q).windows).Perm (picked.map Prod.fst) := by
  unfold Pass.assigned
  split
  · exact ⟨[], nil_sublist _, rfl, .of_eq todos_emptyWindows⟩
  · obtain ⟨picked, hsub, hrm, htodo⟩ :=
      assignLoop_picked (p := p) (l := q.zipIdx) (s := ⟨p.emptyWindows, ∅, []⟩)
    rw [todos_emptyWindows] at htodo
    exact ⟨picked, hsub, hrm, htodo⟩

theorem key_eq_iff (x y : WorkerRequest) :
    x.key = y.key ↔ x.less y = false ∧ y.less x = false := by
  rw [← Bool.not_eq_true, ← Bool.not_eq_true, less_iff, less_iff, not_lt, not_lt, and_comm,
    ← le_antisymm_iff]

/-- The queue loses what the windows get, whatever the sort is, exactly without ties. -/
theorem trySched_perm_iff :
    (∀ srt : QueueSort, (todos (trySched srt p q.items).2 ++ (trySched srt p q.items).1).Perm
      q.items) ↔ Untied p q.items := by
  obtain ⟨picked, hsub, hrm, htodo⟩ := assigned_picked p q.items
  have hincreasing : (picked.map Prod.snd).Pairwise (· < ·) := by
    refine Pairwise.sublist (hsub.map Prod.snd) ?_
    rw [zipIdx_map_snd]
    exact pairwise_lt_range'
  have hget : ∀ i ∈ picked.map Prod.snd, ∃ x ∈ picked.map Prod.fst, q.items[i]? = some x := by
    intro i hi
    obtain ⟨⟨x, i⟩, hmem, rfl⟩ := mem_map.mp hi
    exact ⟨x, mem_map_of_mem hmem, mk_mem_zipIdx_iff_getElem?.mp (hsub.subset hmem)⟩
  have hties : Untied p q.items ↔ ∀ i ∈ picked.map Prod.snd,
      (∃ j ∈ picked.map Prod.snd, i < j) → ∀ x ∈ q.items, ∀ y, q.items[i]? = some y →
        x.key = y.key → x ∈ picked.map Prod.fst := by
    unfold Untied
    rw [hrm]
    simp only [key_eq_iff, htodo.mem_iff, mem_def, and_imp]
    exact forall₃_congr fun i _ _ =>
      ⟨fun h x hx y hy => h y hy x hx, fun h y hy x hx => h x hx y hy⟩
  have hperm : ∀ srt : QueueSort, (todos (trySched srt p q.items).2 ++
      (trySched srt p q.items).1).Perm q.items ↔
        (picked.map Prod.fst ++ srt.removeAll q.items (picked.map Prod.snd)).Perm q.items := by
    intro srt
    rw [trySched_eq, ← hrm]
    exact (htodo.append_right _).congr_left _
  rw [hties]
  simp only [hperm]
  constructor
  · refine tied_of_removeAll_perm less_iff q.sorted hincreasing (fun i hi => ?_) q.nodup
    obtain ⟨x, -, hx⟩ := hget i hi
    exact (List.getElem?_eq_some_iff.mp hx).choose
  · intro h srt
    exact removeAll_perm less_iff srt q.sorted hincreasing hget h q.nodup
      (by rw [length_map, length_map])

/-- A pass keeps the number of the requests. -/
theorem length_places (q : List WorkerRequest) :
    ((trySched srt p q).1 ++ todos (trySched srt p q).2).length = q.length := by
  obtain ⟨picked, hsub, hrm, htodo⟩ := assigned_picked p q
  have hle := hsub.length_le
  rw [length_zipIdx] at hle
  rw [trySched_eq, length_append, length_removeAll, hrm, htodo.length_eq, length_map, length_map]
  omega

end Ties

end AssignerLemmas

open AssignerLemmas in
/-- For every queue, open windows, workers and selectors: whatever the sort, the pass leaves every
request in one place, exactly when no request that stays in the queue compares equal to one that is
assigned, other than the last of these. -/
theorem trySched_partition_iff (p : Pass F) (q : RequestQueue) :
    (∀ srt : QueueSort, Partitioned q.items (trySched srt p q.items)) ↔ Untied p q.items := by
  rw [← trySched_perm_iff]
  refine forall_congr' fun srt => ⟨fun h => ?_, fun h r hr => ?_⟩
  · have hsub : q.items ⊆ (trySched srt p q.items).1 ++ todos (trySched srt p q.items).2 :=
      fun r hr => count_pos_iff.mp (h r hr ▸ one_pos)
    exact perm_append_comm.trans ((subperm_of_subset q.nodup hsub).perm_of_length_le
      (le_of_eq (length_places srt p q.items))).symm
  · rw [(perm_append_comm.trans h).count_eq]
    exact count_eq_one_of_mem q.nodup hr

/-- A request for a piece of a sector. -/
def pieceRequest (schedId : Nat) : WorkerRequest :=
  ⟨⟨1000, max 1 schedId⟩, 0, .addPiece, 0, schedId⟩

/-- Two requests for sector 1, and one for each of the sectors 2 to 13. -/
def pieceQueue : RequestQueue where
  items := (List.range 14).map pieceRequest
  sorted := by decide
  nodup := by decide

/-- What `sort.Sort` makes of thirteen requests: the first two, which compare equal, are
exchanged. -/
def goSort : QueueSort where
  sort l :=
    if l = ([0, 1, 13] ++ List.range' 3 10).map pieceRequest then
      ([1, 0] ++ List.range' 3 11).map pieceRequest
    else stableSort WorkerRequest.less l
  perm l := by
    split
    · next hl => rw [hl]; decide
    · exact stableSort_perm
  sorted l := by
    split
    · decide
    · exact stableSort_sorted WorkerRequest.less_strictWeak

/-- The first and the third request are assigned. The first is then in the queue and in the window,
and the second nowhere. -/
theorem equal_request_lost :
    let out := trySched goSort (onePass fun r => r.schedId = 0 ∨ r.schedId = 2 : Pass ℚ)
      pieceQueue.items
    out.1.map WorkerRequest.schedId = [0] ++ List.range' 3 11 ∧
      todos out.2 = [pieceRequest 0, pieceRequest 2] ∧ ¬Partitioned pieceQueue.items out := by
  refine ⟨by decide +kernel, by decide +kernel, fun hpart => ?_⟩
  have hcount := hpart (pieceRequest 1) (by decide)
  exact absurd hcount (by decide +kernel)

end OpenDsn.Sealer
