import OpenDsn.Sync.Manager

/-!
# Deferred heads

What becomes of the tipsets of a bucket that is taken out of the deferred queue. The loop
looks at the active workers to decide about the head of the bucket, and does so inside its
loop over them: without a worker there is no decision, and the bucket is gone. This is the
case when the last worker is done. The other tipsets of the bucket are not looked at.

* `heads_kept_iff`: in every run, no deferred tipset is lost exactly when each one has a
  place when its bucket is popped, or is a head that finds a worker or a related pending
  tipset, or is lighter than a head that is fit for a worker;
* `heavier_fork_lost`: a run in which the heaviest head is lost.
-/

namespace OpenDsn.Sync

open Lib Chain

/-- The tipset was synced lately, itself or something heavier, or is pending, or is being
synced, or is lighter than an active target. -/
def Round.Settled (env : SyncEnv) (round : Round) (t : TipSet) : Prop :=
  round.before.recent.synced env t = true ∨
    (∃ b ∈ round.before.pend, ∃ p ∈ b.tips, p.equals t = true) ∨
    ∃ ws ∈ round.before.state.values, ws.equals t = true ∨ env.isHeavier ws t = true

/-- The tipset has its place already, or is now moved to the pending queue, or is
returned, or is lighter than the target that is returned. -/
def Round.Kept (env : SyncEnv) (round : Round) (t : TipSet) : Prop :=
  round.Settled env t ∨
    (t = round.heaviest ∧ round.after.pend = SyncBucketSet.insert env t round.before.pend) ∨
    ∃ ws ∈ round.target, t = ws ∨ env.isHeavier ws t = true

/-- The head is neither recently synced nor related to a pending tipset, and the first
worker is on something else that is not heavier. -/
def Round.Fit (env : SyncEnv) (round : Round) : Prop :=
  round.before.recent.synced env round.heaviest = false ∧
    SyncBucketSet.relatedToAny round.before.pend round.heaviest = false ∧
    ∃ ws ∈ round.first, ws.equals round.heaviest = false ∧
      env.isHeavier ws round.heaviest = false ∧ round.heaviest.parents ≠ ws.key

/-- The tipset has its place already, or is a head that is related to a pending tipset or
finds a worker, or is lighter than a head that is fit for a worker. -/
def Round.Decided (env : SyncEnv) (round : Round) (t : TipSet) : Prop :=
  round.Settled env t ∨
    (t = round.heaviest ∧
      (SyncBucketSet.relatedToAny round.before.pend round.heaviest = true ∨
        round.first.isSome = true)) ∨
    (env.isHeavier round.heaviest t = true ∧ round.Fit env)

section

variable (env : SyncEnv) (round : Round) (t : TipSet)

instance : Decidable (round.Settled env t) := inferInstanceAs (Decidable (_ ∨ _))

instance : Decidable (round.Kept env t) := inferInstanceAs (Decidable (_ ∨ _))

instance : Decidable (round.Fit env) := inferInstanceAs (Decidable (_ ∧ _))

instance : Decidable (round.Decided env t) := inferInstanceAs (Decidable (_ ∨ _))

end

namespace DeferredLemmas

open ManagerLemmas

variable {env : SyncEnv}

/-- A tipset that is related to no bucket gets its own. -/
theorem insert_unrelated {sbs : SyncBucketSet} {ts : TipSet}
    (h : SyncBucketSet.relatedToAny sbs ts = false) :
    SyncBucketSet.insert env ts sbs = sbs ++ [newSyncTargetBucket ts] := by
  induction sbs with
  | nil => rfl
  | cons b rest ih =>
    obtain ⟨hb, hrest⟩ : b.sameChainAs ts = false ∧ SyncBucketSet.relatedToAny rest ts = false := by
      simpa [SyncBucketSet.relatedToAny] using h
    unfold SyncBucketSet.insert
    rw [if_neg (by rw [hb]; exact Bool.false_ne_true), ih hrest]
    rfl

/-- The cases are those of the loop's body. -/
theorem kept_iff_decided {round : Round} (h : IsRound env round) (t : TipSet) :
    round.Kept env t ↔ round.Decided env t := by
  obtain ⟨order, sm, bucket, rfl⟩ := h
  by_cases hsettled : (deferredRound env order sm bucket).Settled env t
  · exact iff_of_true (.inl hsettled) (.inl hsettled)
  have hrecent : ¬sm.recent.synced env t = true := fun h => hsettled (.inl h)
  have hworkers : ∀ ws ∈ sm.targets (order (bucket.heaviestTipSet env)),
      ¬(ws.equals t || env.isHeavier ws t) = true := fun ws hws h =>
    hsettled (.inr (.inr ⟨ws, ((order _).perm _).mem_iff.mp hws, Bool.or_eq_true_iff.mp h⟩))
  refine or_congr_right ?_
  unfold Round.Fit deferredRound deferredBody
  dsimp only
  generalize bucket.heaviestTipSet env = heaviest at hworkers ⊢
  split_ifs with hsynced hrelated
  · have hne : t ≠ heaviest := fun h => hrecent (h ▸ hsynced)
    simp [hne, hsynced]
  · simp +contextual [hrelated]
  cases htargets : sm.targets (order heaviest) with
  | nil =>
    have hgrows : sm.pend ≠ SyncBucketSet.insert env heaviest sm.pend := by
      rw [insert_unrelated (Bool.eq_false_iff.mpr hrelated)]
      simp
    simp +contextual [hrelated, hgrows]
  | cons ws rest =>
    have hws := hworkers ws (by rw [htargets]; exact List.mem_cons_self)
    dsimp only
    split_ifs with hcovered hparent
    · have hne : t ≠ heaviest := fun h => hws (h ▸ hcovered)
      rw [Bool.or_eq_true_iff, or_iff_not_imp_left, Bool.not_eq_true] at hcovered
      simp +contextual [hne, hcovered]
    · simp +contextual [hparent]
    · rw [Bool.not_eq_true, Bool.or_eq_false_iff] at hcovered
      simp +contextual [hsynced, hrelated, hcovered, hparent]

end DeferredLemmas

open DeferredLemmas ManagerLemmas in
/-- For every sequence of events and every order of the maps: the tipsets that the loop
takes out of the deferred queue all have a place after it exactly when each of them has one
before it, or is a head that finds one, or is lighter than a head that gets a worker. -/
theorem heads_kept_iff {env : SyncEnv} {events : List (SyncEvent × RangeOrder)}
    {sm : SyncManager} {rounds : List Round}
    (hrun : syncRun env newSyncManager events = some (sm, rounds)) :
    (∀ round ∈ rounds, ∀ t ∈ round.tips, round.Kept env t) ↔
      ∀ round ∈ rounds, ∀ t ∈ round.tips, round.Decided env t :=
  forall₂_congr fun round hmem => forall₂_congr fun t _ =>
    kept_iff_decided (mem_rounds hrun round hmem) t

/-! ## Runs -/

/-- Weights are the CIDs of the first blocks, and four peers start the initial sync. -/
def fourPeers : SyncEnv where
  sorter := stableSorter
  miner b := b.cid
  ticket b := [UInt8.ofNat b.cid]
  digest t := (t.map UInt8.toNat).sum
  weight _ := none
  parentWeight b := b.cid
  coalesceTipsets := false
  bootstrapPeerThreshold := 4

def listedOrder : RangeOrder := fun _ => .listed

/-- A head, a tipset on it, and a heavier head on another chain. -/
def mainHead : TipSet := .single ⟨10, [1], 5, 0⟩

def extendedHead : TipSet := .single ⟨12, [10], 6, 0⟩

def forkHead : TipSet := .single ⟨15, [2], 7, 0⟩

/-- Four peers report the same head. -/
def started : List (SyncEvent × RangeOrder) :=
  [0, 1, 2, 3].map fun p => (.peerHead p mainHead, listedOrder)

/-- The extended head waits for the worker of the initial sync, and the fork is deferred.
The worker is done, the next one goes on with the extended head, and there is a tick. -/
def secondWorker : List (SyncEvent × RangeOrder) :=
  started ++ [(.peerHead 0 extendedHead, listedOrder), (.peerHead 1 forkHead, listedOrder),
    (.workerStatus 0 true true, listedOrder), (.tick, listedOrder)]

/-- The fork is deferred, and the only worker is done without an error. -/
def onlyWorker : List (SyncEvent × RangeOrder) :=
  started ++ [(.peerHead 1 forkHead, listedOrder), (.workerStatus 0 true true, listedOrder)]

theorem exists_syncRun (env : SyncEnv) (events : List (SyncEvent × RangeOrder))
    {p : SyncManager → List Round → Prop} [∀ sm rounds, Decidable (p sm rounds)]
    (h : (syncRun env newSyncManager events).any (fun r => p r.1 r.2) = true) :
    ∃ sm rounds, syncRun env newSyncManager events = some (sm, rounds) ∧ p sm rounds := by
  cases hrun : syncRun env newSyncManager events with
  | none => rw [hrun] at h; cases h
  | some r => rw [hrun] at h; exact ⟨r.1, r.2, rfl, of_decide_eq_true h⟩

/-- The fork gets the second of two workers. -/
theorem heads_kept_iff_second_worker :
    ∃ sm rounds, syncRun fourPeers newSyncManager secondWorker = some (sm, rounds) ∧
      rounds.map Round.heaviest = [forkHead] ∧ sm.state.values = [forkHead, extendedHead] ∧
      ∀ round ∈ rounds, ∀ t ∈ round.tips, round.Kept fourPeers t := by
  obtain ⟨sm, rounds, hrun, hheads, hstate, hdecided⟩ := exists_syncRun fourPeers secondWorker
    (p := fun sm rounds => rounds.map Round.heaviest = [forkHead] ∧
      sm.state.values = [forkHead, extendedHead] ∧
      ∀ round ∈ rounds, ∀ t ∈ round.tips, round.Decided fourPeers t)
    (by decide)
  exact ⟨sm, rounds, hrun, hheads, hstate, (heads_kept_iff hrun).mpr hdecided⟩

/-- The fork is heavier than everything else, and after the run it is in no queue, and no
worker is active. -/
theorem heavier_fork_lost :
    ∃ sm rounds, syncRun fourPeers newSyncManager onlyWorker = some (sm, rounds) ∧
      (∃ round ∈ rounds, round.tips = [forkHead] ∧ ¬ round.Kept fourPeers forkHead) ∧
      sm.state.values = [] ∧ sm.pend = [] ∧ sm.deferred = [] ∧
      sm.recent.synced fourPeers forkHead = false :=
  exists_syncRun fourPeers onlyWorker (by decide)

end OpenDsn.Sync
