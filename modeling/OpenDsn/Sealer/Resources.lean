import Mathlib.Tactic.NormNum
import OpenDsn.Sealer.SealTask

/-!
# Resources of a worker

`storage/sealer/sched_resources.go`, with `ResourceSpec` and `Threads` of `storiface`: what
a task needs, and the records of what is in use on a worker. A record is charged after
`canHandleRequest` has said that the task fits. Memory and threads are counted in `uint64`.
The fractions of processors that are `float64` in the source are in a type with the operations
that are used on them.
-/

namespace OpenDsn.Sealer

/-- What is used of `float64`. -/
class Float64 (F : Type) where
  ofNat : Nat → F
  add : F → F → F
  sub : F → F → F
  div : F → F → F
  lt : F → F → Bool
  ge : F → F → Bool
  /-- `math.MaxFloat64`. -/
  maxFloat64 : F

open Float64

/-- Without rounding. -/
instance : Float64 ℚ where
  ofNat n := n
  add := (· + ·)
  sub := (· - ·)
  div := (· / ·)
  lt x y := x < y
  ge x y := x ≥ y
  maxFloat64 := (2 ^ 53 - 1) * 2 ^ 971

structure Resources (F : Type) where
  minMemory : UInt64
  maxMemory : UInt64
  gpuUtilization : F
  maxParallelism : Int64
  maxParallelismGPU : Int64
  baseMinMemory : UInt64
  maxConcurrent : Int

/-- The resources of tasks by type and proof, where a map has them. -/
abbrev ResourceTable (F : Type) := SealTaskType → Option (Resources F)

structure WorkerResources (F : Type) where
  memPhysical : UInt64
  memUsed : UInt64
  memSwap : UInt64
  memSwapUsed : UInt64
  cpus : UInt64
  /-- The number of the `GPUs`. -/
  gpus : Nat
  /-- The table of the worker, which goes before the default one. -/
  resources : ResourceTable F

structure WorkerInfo (F : Type) where
  ignoreResources : Bool
  resources : WorkerResources F

def parallelNum : UInt64 := 92
def parallelDenom : UInt64 := 100

variable {F : Type} [Float64 F]

/-- The value of a task that is in no table. -/
def noResources : Resources F := ⟨0, 0, ofNat 0, 0, 0, 0, 0⟩

def Resources.threads (r : Resources F) (wcpus : UInt64) (gpus : Nat) : UInt64 :=
  let mp :=
    if lt (ofNat 0) r.gpuUtilization = true ∧ gpus > 0 ∧ r.maxParallelismGPU ≠ 0 then
      r.maxParallelismGPU
    else r.maxParallelism
  if mp = -1 then
    let n := wcpus * parallelNum / parallelDenom
    if n = 0 then wcpus else n
  else mp.toUInt64

/-- `ResourceSpec`. `table` is the default table. -/
def WorkerResources.resourceSpec (wr : WorkerResources F) (table : ResourceTable F)
    (tt : SealTaskType) : Resources F :=
  ((wr.resources tt).or (table tt)).getD noResources

structure ActiveResources (F : Type) where
  memUsedMin : UInt64
  memUsedMax : UInt64
  gpuUsed : F
  cpuUse : UInt64
  taskCounters : SealTaskType → Int

def newActiveResources : ActiveResources F := ⟨0, 0, ofNat 0, 0, fun _ => 0⟩

/-- The larger of two fractions. -/
def larger (x y : F) : F := if lt x y then y else x

/-- The part of the worker that is used, in the range from 0 to 1. -/
def ActiveResources.utilization (a : ActiveResources F) (wr : WorkerResources F) : F :=
  let cpu := div (ofNat a.cpuUse.toNat) (ofNat wr.cpus.toNat)
  let memUsed := max a.memUsedMin wr.memUsed
  let memMin := div (ofNat memUsed.toNat) (ofNat wr.memPhysical.toNat)
  let vmemUsed := max a.memUsedMax (wr.memUsed + wr.memSwapUsed)
  let memMax := div (ofNat vmemUsed.toNat) (ofNat (wr.memPhysical + wr.memSwap).toNat)
  let used := larger (larger cpu memMin) memMax
  if wr.gpus > 0 then larger used (div a.gpuUsed (ofNat wr.gpus)) else used

/-- `Add`, without the difference of the utilization. -/
def ActiveResources.add (a : ActiveResources F) (tt : SealTaskType) (wr : WorkerResources F)
    (r : Resources F) : ActiveResources F where
  gpuUsed := if lt (ofNat 0) r.gpuUtilization then Float64.add a.gpuUsed r.gpuUtilization
    else a.gpuUsed
  cpuUse := a.cpuUse + r.threads wr.cpus wr.gpus
  memUsedMin := a.memUsedMin + r.minMemory
  memUsedMax := a.memUsedMax + r.maxMemory
  taskCounters := Function.update a.taskCounters tt (a.taskCounters tt + 1)

def ActiveResources.free (a : ActiveResources F) (tt : SealTaskType) (wr : WorkerResources F)
    (r : Resources F) : ActiveResources F where
  gpuUsed := if lt (ofNat 0) r.gpuUtilization then sub a.gpuUsed r.gpuUtilization else a.gpuUsed
  cpuUse := a.cpuUse - r.threads wr.cpus wr.gpus
  memUsedMin := a.memUsedMin - r.minMemory
  memUsedMax := a.memUsedMax - r.maxMemory
  taskCounters := Function.update a.taskCounters tt (a.taskCounters tt - 1)

/-- The checks of `CanHandleRequest`, in the order in which they are made. -/
def ActiveResources.canHandleRequest (a : ActiveResources F) (tt : SealTaskType)
    (needRes : Resources F) (info : WorkerInfo F) : Bool :=
  let res := info.resources
  let memNeeded := needRes.minMemory + needRes.baseMinMemory
  let memAvail := res.memPhysical - a.memUsedMin
  let vmemNeeded := needRes.maxMemory + needRes.baseMinMemory
  -- what is used outside of the worker counts as used
  let vmemUsed := max a.memUsedMax (res.memUsed + res.memSwapUsed)
  let vmemAvail := res.memPhysical + res.memSwap - vmemUsed
  if needRes.maxConcurrent > 0 ∧ a.taskCounters tt ≥ needRes.maxConcurrent then false
  else if info.ignoreResources then true
  else if memNeeded > memAvail then false
  else if vmemNeeded > vmemAvail then false
  else if a.cpuUse + needRes.threads res.cpus res.gpus > res.cpus then false
  else if res.gpus > 0 ∧ lt (ofNat 0) needRes.gpuUtilization = true ∧
      lt (ofNat res.gpus) (Float64.add a.gpuUsed needRes.gpuUtilization) = true then false
  else true

end OpenDsn.Sealer
