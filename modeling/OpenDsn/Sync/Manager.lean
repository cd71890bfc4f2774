import OpenDsn.Chain.Store
import OpenDsn.Lib.Table

/-!
# The sync manager

`chain/sync_manager.go`: the heads that peers report are scheduled onto sync workers.
A head that extends an active sync waits in the pending queue; one on another chain gets
its own worker, or is deferred while the initial sync runs or all workers are busy.
Deferred heads are looked at again when a worker is done (`selectDeferredSyncTarget`).

The scheduler handles one event at a time. An event comes with the orders in which its
handlers range over maps. The loop over the deferred queue leaves a log of its rounds.

* `popBest_perm`: a bucket is taken out of the queue, and no other one;
* `deferredLoop_done`: the loop ends with a target or an empty queue;
* `mem_rounds`: every round of a run is a pass of the loop's body.
-/

namespace OpenDsn.Sync

open Lib Chain List

def recentSyncBufferSize : Nat := 10

def maxSyncWorkers : Nat := 5

/-- What the manager reads of headers besides the fields of `BlockHeader`, and its
settings. -/
structure SyncEnv extends StoreEnv where
  parentWeight : BlockHeader → Int
  coalesceTipsets : Bool
  bootstrapPeerThreshold : Nat

namespace SyncEnv

def weightOf (env : SyncEnv) (ts : TipSet) : Int := env.parentWeight ts.first

def isHeavier (env : SyncEnv) (a b : TipSet) : Bool := env.weightOf a > env.weightOf b

end SyncEnv

/-! ## Recently synced tipsets -/

/-- A circular buffer. -/
structure SyncBuffer where
  buf : List (Option TipSet)
  next : Nat

def newSyncBuffer (size : Nat) : SyncBuffer := ⟨List.replicate size none, 0⟩

def SyncBuffer.push (sb : SyncBuffer) (ts : TipSet) : SyncBuffer :=
  ⟨sb.buf.set sb.next (some ts), (sb.next + 1) % sb.buf.length⟩

def SyncBuffer.synced (env : SyncEnv) (sb : SyncBuffer) (ts : TipSet) : Bool :=
  sb.buf.any fun
    | none => false
    | some rts => rts.equals ts || env.isHeavier rts ts

/-! ## Buckets -/

/-- Tipsets of one chain. -/
structure SyncTargetBucket where
  tips : List TipSet
  tips_ne : tips ≠ []
deriving DecidableEq

/-- The first of the heaviest tipsets. -/
def SyncTargetBucket.heaviestTipSet (env : SyncEnv) (stb : SyncTargetBucket) : TipSet :=
  stb.tips.tail.foldl (fun best ts => if env.isHeavier ts best then ts else best)
    (stb.tips.head stb.tips_ne)

def SyncTargetBucket.sameChainAs (stb : SyncTargetBucket) (ts : TipSet) : Bool :=
  stb.tips.any fun t => ts.equals t || ts.key = t.parents || ts.parents = t.key

/-- The first block of each miner. -/
def firstOfMiners (env : SyncEnv) : List BlockHeader → List Nat → List BlockHeader
  | [], _ => []
  | b :: rest, miners =>
      if env.miner b ∈ miners then firstOfMiners env rest miners
      else b :: firstOfMiners env rest (env.miner b :: miners)

/-- The loop of `add`. If tipsets are coalesced, a tipset joins one of its height and
parents. -/
def addLoop (env : SyncEnv) (ts : TipSet) : List TipSet → List TipSet
  | [] => [ts]
  | t :: rest =>
      if t.equals ts then t :: rest
      else if env.coalesceTipsets ∧ t.height = ts.height ∧ cidArrsEqual t.parents ts.parents then
        match newTipSet env.toStoreEnv (firstOfMiners env (t.blks ++ ts.blks) []) with
        | .error _ => t :: addLoop env ts rest
        | .ok ts2 => ts2 :: rest
      else t :: addLoop env ts rest

theorem addLoop_ne (env : SyncEnv) (ts : TipSet) (tips : List TipSet) :
    addLoop env ts tips ≠ [] := by
  cases tips with
  | nil => exact cons_ne_nil _ _
  | cons t rest =>
    unfold addLoop
    split
    · exact cons_ne_nil _ _
    · split
      · split <;> exact cons_ne_nil _ _
      · exact cons_ne_nil _ _

def SyncTargetBucket.add (env : SyncEnv) (stb : SyncTargetBucket) (ts : TipSet) :
    SyncTargetBucket :=
  ⟨addLoop env ts stb.tips, addLoop_ne env ts stb.tips⟩

def newSyncTargetBucket (ts : TipSet) : SyncTargetBucket := ⟨[ts], List.cons_ne_nil _ _⟩

/-! ## Queues of buckets -/

abbrev SyncBucketSet := List SyncTargetBucket

namespace SyncBucketSet

def relatedToAny (sbs : SyncBucketSet) (ts : TipSet) : Bool := sbs.any (·.sameChainAs ts)

def insert (env : SyncEnv) (ts : TipSet) : SyncBucketSet → SyncBucketSet
  | [] => [newSyncTargetBucket ts]
  | b :: rest => if b.sameChainAs ts then b.add env ts :: rest else b :: insert env ts rest

/-- `Pop`: the first of the buckets with the heaviest head, and the others. -/
def popBest (env : SyncEnv) : SyncBucketSet → Option (SyncTargetBucket × SyncBucketSet)
  | [] => none
  | b :: rest =>
      match popBest env rest with
      | none => some (b, [])
      | some (best, others) =>
          if env.weightOf (b.heaviestTipSet env) < env.weightOf (best.heaviestTipSet env) then
            some (best, b :: others)
          else some (b, rest)

/-- The tipsets of all related buckets, and the other buckets. -/
def popRelated (sbs : SyncBucketSet) (ts : TipSet) : Option SyncTargetBucket × SyncBucketSet :=
  let tips := (sbs.filter (·.sameChainAs ts)).flatMap SyncTargetBucket.tips
  (if h : tips ≠ [] then some ⟨tips, h⟩ else none, sbs.filter fun b => !b.sameChainAs ts)

def heaviest (env : SyncEnv) (sbs : SyncBucketSet) : Option TipSet :=
  sbs.foldl (fun bestTs b =>
    let bhts := b.heaviestTipSet env
    match bestTs with
    | none => some bhts
    | some best => if env.isHeavier bhts best then some bhts else some best) none

end SyncBucketSet

/-! ## The manager -/

abbrev PeerId := Nat

structure SyncManager where
  nextWorker : Nat
  pend : SyncBucketSet
  deferred : SyncBucketSet
  heads : Table PeerId TipSet
  recent : SyncBuffer
  initialSyncDone : Bool
  /-- The targets of the active workers. -/
  state : Table Nat TipSet
  tickerStopped : Bool

def newSyncManager : SyncManager where
  nextWorker := 0
  pend := []
  deferred := []
  heads := ∅
  recent := newSyncBuffer recentSyncBufferSize
  initialSyncDone := false
  state := ∅
  tickerStopped := false

/-- The order in which maps are visited while a tipset is looked at. -/
abbrev RangeOrder := TipSet → Arrangement

/-- The targets of the active workers, in some order. -/
def SyncManager.targets (sm : SyncManager) (order : Arrangement) : List TipSet :=
  order.arrange sm.state.values

def spawnWorker (sm : SyncManager) (target : TipSet) : SyncManager :=
  { sm with nextWorker := sm.nextWorker + 1, state := sm.state.insert sm.nextWorker target }

/-- `selectInitialSyncTarget`, after which the map of heads is dropped. -/
def selectInitialSyncTarget (env : SyncEnv) (order : Arrangement) (sm : SyncManager) :
    Option TipSet × SyncManager :=
  let peerHeads := env.sorter.sort (fun a b : TipSet => decide (a.height < b.height))
    (order.arrange sm.heads.values)
  let buckets := peerHeads.foldl (fun bs ts => SyncBucketSet.insert env ts bs) []
  (SyncBucketSet.heaviest env buckets, { sm with heads := ∅ })

/-- The first loop of `addSyncTarget` over the active workers: whether the tipset is being
synced, or extends what is. -/
inductive ActiveRelation
  | syncing
  | extension
  | none

def activeRelation (ts : TipSet) : List TipSet → ActiveRelation
  | [] => .none
  | ws :: rest =>
      if ts.equals ws then .syncing
      else if ts.parents = ws.key then .extension
      else activeRelation ts rest

/-- Whether a head on another chain is too light to be synced. -/
def tooLight (env : SyncEnv) (sm : SyncManager) (targets : List TipSet) (ts : TipSet) : Bool :=
  targets.any (env.isHeavier · ts) ||
    match SyncBucketSet.heaviest env sm.pend with
    | none => false
    | some pendHeaviest => env.isHeavier pendHeaviest ts

section

variable (env : SyncEnv) (order : RangeOrder) (sm : SyncManager)

def addSyncTarget (ts : TipSet) : Option TipSet × SyncManager :=
  if sm.recent.synced env ts then (none, sm)
  else if sm.state.size = 0 then (some ts, sm)
  else
    let targets := sm.targets (order ts)
    match activeRelation ts targets with
    | .syncing => (none, sm)
    | .extension => (none, { sm with pend := SyncBucketSet.insert env ts sm.pend })
    | .none =>
        if SyncBucketSet.relatedToAny sm.pend ts then
          (none, { sm with pend := SyncBucketSet.insert env ts sm.pend })
        else if tooLight env sm targets ts then (none, sm)
        else if !sm.initialSyncDone || sm.state.size ≥ maxSyncWorkers then
          (none, { sm with deferred := SyncBucketSet.insert env ts sm.deferred })
        else (some ts, sm)

/-! ## Deferred targets -/

/-- A round of the loop over the deferred queue: the manager once the bucket is out of
the queue, the tipsets of the bucket and its head, the target of the worker that the map
gives first, what the round returns, and the manager after it. -/
structure Round where
  before : SyncManager
  tips : List TipSet
  heaviest : TipSet
  first : Option TipSet
  target : Option TipSet
  after : SyncManager

/-- The body of the loop. The loop over the workers in it comes to a decision with the
first one, if there is any. -/
def deferredBody (heaviest : TipSet) : Option TipSet × SyncManager :=
  if sm.recent.synced env heaviest then (none, sm)
  else if SyncBucketSet.relatedToAny sm.pend heaviest then
    (none, { sm with pend := SyncBucketSet.insert env heaviest sm.pend })
  else
    match sm.targets (order heaviest) with
    | [] => (none, sm)
    | ws :: _ =>
        if ws.equals heaviest || env.isHeavier ws heaviest then (none, sm)
        else if heaviest.parents = ws.key then
          (none, { sm with pend := SyncBucketSet.insert env heaviest sm.pend })
        else (some heaviest, sm)

def deferredRound (before : SyncManager) (bucket : SyncTargetBucket) : Round :=
  let heaviest := bucket.heaviestTipSet env
  let body := deferredBody env order before heaviest
  ⟨before, bucket.tips, heaviest, (before.targets (order heaviest)).head?, body.1, body.2⟩

/-- A selected target, the manager, and the rounds it took. -/
structure Selected where
  target : Option TipSet
  sm : SyncManager
  rounds : List Round

/-- Every round takes a bucket out of the queue, so its length bounds their number. -/
def deferredLoop (env : SyncEnv) (order : RangeOrder) : Nat → SyncManager → Selected
  | 0, sm => ⟨none, sm, []⟩
  | fuel + 1, sm =>
      match SyncBucketSet.popBest env sm.deferred with
      | none => ⟨none, sm, []⟩
      | some (bucket, rest) =>
          let round := deferredRound env order { sm with deferred := rest } bucket
          match round.target with
          | some target => ⟨some target, round.after, [round]⟩
          | none =>
              let sel := deferredLoop env order fuel round.after
              { sel with rounds := round :: sel.rounds }

def selectDeferredSyncTarget : Selected :=
  deferredLoop env order sm.deferred.length sm

def selectSyncTarget (done : TipSet) : Selected :=
  match SyncBucketSet.popRelated sm.pend done with
  | (none, pend) => selectDeferredSyncTarget env order { sm with pend }
  | (some related, pend) =>
      let sm := { sm with pend }
      let heaviest := related.heaviestTipSet env
      if env.isHeavier done heaviest then selectDeferredSyncTarget env order sm
      else if sm.state.values.any (env.isHeavier · heaviest) then
        selectDeferredSyncTarget env order sm
      else if sm.recent.synced env heaviest then selectDeferredSyncTarget env order sm
      else ⟨some heaviest, sm, []⟩

/-! ## Events -/

/-- A worker is spawned for a target, if there is one. -/
def spawnSelected (target : Option TipSet) : SyncManager :=
  match target with
  | none => sm
  | some target => spawnWorker sm target

def handlePeerHead (p : PeerId) (ts : TipSet) : SyncManager :=
  if sm.nextWorker = 0 then
    let sm := { sm with heads := sm.heads.insert p ts }
    if sm.heads.size < env.bootstrapPeerThreshold then sm
    else
      match selectInitialSyncTarget env (order ts) sm with
      | (target, sm) => spawnSelected sm target
  else
    match addSyncTarget env order sm ts with
    | (target, sm) => spawnSelected sm target

/-- A worker is done, without an error if `ok`, and in less than the threshold of the
initial sync if `fast`. The last few workers that are kept for debugging are left out. -/
def handleWorkerStatus (id : Nat) (ok fast : Bool) : Option (SyncManager × List Round) :=
  match sm.state.get? id with
  | none => none
  | some ts =>
      let sm := { sm with state := sm.state.erase id }
      let sm :=
        if ok then
          { sm with
            recent := sm.recent.push ts
            initialSyncDone := sm.initialSyncDone || fast }
        else sm
      let sel := selectSyncTarget env order sm ts
      some (spawnSelected sel.sm sel.target, sel.rounds)

/-- The loop of `handleInitialSyncDone`; every round that goes on takes a bucket out of
the queue. -/
def initialDoneLoop (env : SyncEnv) (order : RangeOrder) : Nat → SyncManager →
    SyncManager × List Round
  | 0, sm => (sm, [])
  | fuel + 1, sm =>
      if sm.state.size < maxSyncWorkers then
        let sel := selectDeferredSyncTarget env order sm
        match sel.target with
        | none => (sel.sm, sel.rounds)
        | some target =>
            match initialDoneLoop env order fuel (spawnWorker sel.sm target) with
            | (sm, rounds) => (sm, sel.rounds ++ rounds)
      else (sm, [])

def handleInitialSyncDone : SyncManager × List Round :=
  initialDoneLoop env order (sm.deferred.length + 1) sm

end

inductive SyncEvent
  | peerHead (p : PeerId) (ts : TipSet)
  | workerStatus (id : Nat) (ok fast : Bool)
  | tick

/-- The scheduler with one event; `none` for the status of a worker that there is not. -/
def syncStep (env : SyncEnv) (sm : SyncManager) (event : SyncEvent × RangeOrder) :
    Option (SyncManager × List Round) :=
  match event with
  | (.peerHead p ts, order) => some (handlePeerHead env order sm p ts, [])
  | (.workerStatus id ok fast, order) => handleWorkerStatus env order sm id ok fast
  | (.tick, order) =>
      if sm.initialSyncDone && !sm.tickerStopped then
        some (handleInitialSyncDone env order { sm with tickerStopped := true })
      else some (sm, [])

/-- The manager after some events, and all rounds of the loop over the deferred queue. -/
def syncRun (env : SyncEnv) (sm : SyncManager) :
    List (SyncEvent × RangeOrder) → Option (SyncManager × List Round)
  | [] => some (sm, [])
  | event :: events =>
      match syncStep env sm event with
      | none => none
      | some (sm, rounds) =>
          (syncRun env sm events).map fun (sm, rounds') => (sm, rounds ++ rounds')

namespace ManagerLemmas

open SyncBucketSet

variable {env : SyncEnv} {order : RangeOrder} {sm : SyncManager}

theorem popBest_eq_none {sbs : SyncBucketSet} (h : SyncBucketSet.popBest env sbs = none) :
    sbs = [] := by
  cases sbs with
  | nil => rfl
  | cons b rest =>
    unfold popBest at h
    split at h
    · cases h
    · split at h <;> cases h

/-- A bucket is taken out of the queue, and no other one. -/
theorem popBest_perm {sbs others : SyncBucketSet} {best : SyncTargetBucket}
    (h : SyncBucketSet.popBest env sbs = some (best, others)) : sbs.Perm (best :: others) := by
  induction sbs generalizing best others with
  | nil => cases h
  | cons b rest ih =>
    unfold popBest at h
    cases hpop : popBest env rest with
    | none =>
      rw [hpop] at h
      cases h
      rw [popBest_eq_none hpop]
    | some p =>
      rw [hpop] at h
      dsimp only at h
      split at h
      · cases h
        exact ((ih hpop).cons b).trans (.swap _ _ _)
      · cases h
        exact .refl _

theorem deferredBody_deferred (heaviest : TipSet) :
    (deferredBody env order sm heaviest).2.deferred = sm.deferred := by
  unfold deferredBody
  split
  · rfl
  · split
    · rfl
    · split
      · rfl
      · split
        · rfl
        · split <;> rfl

/-- The loop ends with a target or an empty queue. -/
theorem deferredLoop_done {fuel : Nat} (hfuel : sm.deferred.length ≤ fuel)
    (h : (deferredLoop env order fuel sm).target = none) :
    (deferredLoop env order fuel sm).sm.deferred = [] := by
  induction fuel generalizing sm with
  | zero => exact eq_nil_of_length_eq_zero (Nat.le_zero.mp hfuel)
  | succ fuel ih =>
    unfold deferredLoop at h ⊢
    cases hpop : popBest env sm.deferred with
    | none =>
      exact popBest_eq_none hpop
    | some p =>
      obtain ⟨bucket, rest⟩ := p
      rw [hpop] at h
      have hlen := (popBest_perm hpop).length_eq
      dsimp only at h ⊢
      cases htarget : (deferredRound env order { sm with deferred := rest } bucket).target with
      | some target => rw [htarget] at h; cases h
      | none =>
        rw [htarget] at h
        refine ih ?_ h
        show (deferredBody env order { sm with deferred := rest } _).2.deferred.length ≤ fuel
        rw [deferredBody_deferred]
        rw [hlen] at hfuel
        exact Nat.le_of_succ_le_succ hfuel

/-- The round is a pass of the loop's body. -/
def IsRound (env : SyncEnv) (round : Round) : Prop :=
  ∃ order sm bucket, round = deferredRound env order sm bucket

theorem mem_deferredLoop_rounds (fuel : Nat) (sm : SyncManager) :
    ∀ round ∈ (deferredLoop env order fuel sm).rounds, IsRound env round := by
  induction fuel generalizing sm with
  | zero => exact fun _ h => nomatch h
  | succ fuel ih =>
    unfold deferredLoop
    split
    · exact fun _ h => nomatch h
    · dsimp only
      split
      · exact forall_mem_singleton.mpr ⟨order, _, _, rfl⟩
      · exact forall_mem_cons.mpr ⟨⟨order, _, _, rfl⟩, ih _⟩

theorem mem_selectSyncTarget_rounds (done : TipSet) :
    ∀ round ∈ (selectSyncTarget env order sm done).rounds, IsRound env round := by
  unfold selectSyncTarget
  split
  · exact mem_deferredLoop_rounds _ _
  · dsimp only
    split
    · exact mem_deferredLoop_rounds _ _
    · split
      · exact mem_deferredLoop_rounds _ _
      · split
        · exact mem_deferredLoop_rounds _ _
        · exact fun _ h => nomatch h

theorem mem_initialDoneLoop_rounds (fuel : Nat) (sm : SyncManager) :
    ∀ round ∈ (initialDoneLoop env order fuel sm).2, IsRound env round := by
  induction fuel generalizing sm with
  | zero => exact fun _ h => nomatch h
  | succ fuel ih =>
    unfold initialDoneLoop
    split
    · dsimp only
      split
      · exact mem_deferredLoop_rounds _ _
      · exact forall_mem_append.mpr ⟨mem_deferredLoop_rounds _ _, ih _⟩
    · exact fun _ h => nomatch h

theorem mem_syncStep_rounds {event : SyncEvent × RangeOrder} {sm' : SyncManager}
    {rounds : List Round} (h : syncStep env sm event = some (sm', rounds)) :
    ∀ round ∈ rounds, IsRound env round := by
  obtain ⟨event, order⟩ := event
  cases event with
  | peerHead p ts => cases h; exact fun _ h => nomatch h
  | workerStatus id ok fast =>
    unfold syncStep handleWorkerStatus at h
    dsimp only at h
    split at h
    · cases h
    · cases h
      exact mem_selectSyncTarget_rounds _
  | tick =>
    unfold syncStep at h
    dsimp only at h
    split at h
    · have hrounds : (handleInitialSyncDone env order _).2 = rounds :=
        congrArg Prod.snd (Option.some.inj h)
      rw [← hrounds]
      exact mem_initialDoneLoop_rounds _ _
    · cases h
      exact fun _ h => nomatch h

/-- Every round of a run is a pass of the loop's body. -/
theorem mem_rounds {events : List (SyncEvent × RangeOrder)} {sm' : SyncManager}
    {rounds : List Round} (h : syncRun env sm events = some (sm', rounds)) :
    ∀ round ∈ rounds, IsRound env round := by
  induction events generalizing sm rounds with
  | nil => cases h; exact fun _ h => nomatch h
  | cons event events ih =>
    unfold syncRun at h
    split at h
    · cases h
    next sm₁ rounds₁ hstep =>
    obtain ⟨⟨sm₂, rounds₂⟩, hrun, heq⟩ := Option.map_eq_some_iff.mp h
    obtain ⟨rfl, rfl⟩ := Prod.mk.inj heq
    exact forall_mem_append.mpr ⟨mem_syncStep_rounds hstep, ih hrun⟩

end ManagerLemmas

end OpenDsn.Sync
