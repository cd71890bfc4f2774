import Mathlib.Data.Prod.Lex
import OpenDsn.Lib.Resort
import OpenDsn.Paths.FileType

/-!
# Tasks and their queue

`storage/sealer/sealtasks/task.go` and `storage/sealer/request_queue.go`. The requests that wait
for a worker are in a queue that is sorted after every change with `sort.Sort`, which is not
stable: requests that compare equal come in any order.

`less_iff`: the comparison is one of keys, so it is what `sort.Sort` asks for.
-/

namespace OpenDsn.Sealer

open Lib Paths

inductive TaskType
  | dataCid
  | addPiece
  | preCommit1
  | preCommit2
  | commit1
  | commit2
  | finalize
  | fetch
  | unseal
  | replicaUpdate
  | proveReplicaUpdate1
  | proveReplicaUpdate2
  | regenSectorKey
  | finalizeReplicaUpdate
  | downloadSector
  | generateWindowPoSt
  | generateWinningPoSt
deriving DecidableEq

/-- A type that is not in the map has the order zero. -/
def TaskType.order : TaskType → Int
  | .regenSectorKey => 11
  | .dataCid => 10
  | .addPiece => 9
  | .replicaUpdate => 8
  | .proveReplicaUpdate2 => 7
  | .proveReplicaUpdate1 => 6
  | .preCommit1 => 5
  | .preCommit2 => 4
  | .commit2 => 3
  | .commit1 => 2
  | .unseal => 1
  | .finalizeReplicaUpdate => 0
  | .fetch => -1
  | .downloadSector => -2
  | .finalize => -3
  | .generateWindowPoSt => -4
  | .generateWinningPoSt => -5

/-- Whether one of the orders is negative, and whether the first is smaller. The sign of an
exclusive or says whether the signs differ. -/
def TaskType.muchLess (a b : TaskType) : Bool × Bool :=
  let oneNegative := (BitVec.ofInt 64 a.order ^^^ BitVec.ofInt 64 b.order).slt 0#64
  (oneNegative, a.order < b.order)

def TaskType.less (a b : TaskType) : Bool := a.order < b.order

/-- `abi.RegisteredSealProof`. -/
abbrev RegisteredSealProof := Nat

structure SealTaskType where
  taskType : TaskType
  registeredSealProof : RegisteredSealProof
deriving DecidableEq

structure WorkerRequest where
  sector : SectorID
  proofType : RegisteredSealProof
  taskType : TaskType
  /-- Larger values are more important. -/
  priority : Int
  schedId : Nat
deriving DecidableEq

def WorkerRequest.sealTask (r : WorkerRequest) : SealTaskType := ⟨r.taskType, r.proofType⟩

/-- `Less` of the queue. -/
def WorkerRequest.less (a b : WorkerRequest) : Bool :=
  let (oneMuchLess, muchLess) := a.taskType.muchLess b.taskType
  if oneMuchLess then muchLess
  else if a.priority ≠ b.priority then a.priority > b.priority
  else if a.taskType ≠ b.taskType then a.taskType.less b.taskType
  else a.sector.number < b.sector.number

/-- What `Less` compares, in this order. -/
def WorkerRequest.key (r : WorkerRequest) : Bool ×ₗ Int ×ₗ Int ×ₗ Nat :=
  toLex (decide (0 ≤ r.taskType.order),
    toLex (-r.priority, toLex (r.taskType.order, r.sector.number)))

/-- A sort of the queue. -/
abbrev QueueSort := Sorting WorkerRequest.less

/-- `Push`. `Remove` is `Sorting.remove`. -/
def push (srt : QueueSort) (q : List WorkerRequest) (x : WorkerRequest) : List WorkerRequest :=
  srt.sort (q ++ [x])

/-- The requests in the queue are sorted, and each is there once. -/
structure RequestQueue where
  items : List WorkerRequest
  sorted : items.Pairwise fun a b => b.less a = false
  nodup : items.Nodup

namespace SealTaskLemmas

theorem muchLess_fst : ∀ a b : TaskType,
    (a.muchLess b).1 = (decide (0 ≤ a.order) != decide (0 ≤ b.order)) := by
  intro a b
  cases a <;> cases b <;> rfl

theorem order_injective : Function.Injective TaskType.order := by
  intro a b h
  cases a <;> cases b <;> first | rfl | cases h

/-- With orders of the same sign, the priority is compared first. -/
theorem less_of_same_sign {a b : WorkerRequest}
    (h : decide (0 ≤ a.taskType.order) = decide (0 ≤ b.taskType.order)) :
    a.less b = true ↔ -a.priority < -b.priority ∨ -a.priority = -b.priority ∧
      (a.taskType.order < b.taskType.order ∨
        a.taskType.order = b.taskType.order ∧ a.sector.number < b.sector.number) := by
  unfold WorkerRequest.less
  dsimp only
  rw [muchLess_fst, h, bne_self_eq_false, if_neg Bool.false_ne_true]
  split
  · next hprio =>
    rw [decide_eq_true_eq]
    omega
  · next hprio =>
    split
    · next htype =>
      have horder : a.taskType.order ≠ b.taskType.order := fun ho => htype (order_injective ho)
      unfold TaskType.less
      rw [decide_eq_true_eq]
      omega
    · next htype =>
      have htype : a.taskType = b.taskType := not_not.mp htype
      rw [decide_eq_true_eq, htype]
      omega

/-- A negative order comes before the others, whatever the priority. -/
theorem less_of_other_sign {a b : WorkerRequest}
    (h : decide (0 ≤ a.taskType.order) ≠ decide (0 ≤ b.taskType.order)) :
    a.less b = true ↔ decide (0 ≤ a.taskType.order) < decide (0 ≤ b.taskType.order) := by
  unfold WorkerRequest.less
  dsimp only
  rw [muchLess_fst, if_pos (bne_iff_ne.mpr h)]
  unfold TaskType.muchLess
  rw [Bool.lt_iff, decide_eq_true_eq, decide_eq_false_iff_not, decide_eq_true_eq]
  rw [ne_eq, decide_eq_decide] at h
  omega

end SealTaskLemmas

open SealTaskLemmas in
theorem WorkerRequest.less_iff (a b : WorkerRequest) : a.less b = true ↔ a.key < b.key := by
  unfold WorkerRequest.key
  simp only [Prod.Lex.toLex_lt_toLex]
  by_cases hsign : decide (0 ≤ a.taskType.order) = decide (0 ≤ b.taskType.order)
  · rw [less_of_same_sign hsign, hsign]
    simp only [lt_self_iff_false, true_and, false_or]
  · rw [less_of_other_sign hsign]
    simp only [hsign, false_and, or_false]

theorem WorkerRequest.less_strictWeak : StrictWeak WorkerRequest.less :=
  StrictWeak.of_key WorkerRequest.less_iff

end OpenDsn.Sealer
