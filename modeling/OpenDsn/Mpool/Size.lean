import OpenDsn.Mpool.Chains

/-!
# Pruning and the size of the pool

`currentSize` counts the pending messages; `addLocked` asks for pruning when it
passes `SizeLimitHigh`, and `pruneExcessMessages` prunes when it has reached it
(`chain/messagepool/pruning.go`). The counter is kept beside the maps. `Clear`
drops whole sets and leaves it as it is.

* `currentSize_iff_clearsNothing`: over any run of pool operations `currentSize`
  is the number of pending messages exactly as long as no `Clear` drops one.
-/

namespace OpenDsn.Mpool

open Lib Chain

/-! ## Pruning -/

/-- The senders that are never pruned: the priority addresses, where one that
cannot be resolved leaves the undefined address, and the local senders. -/
def protectedActors (env : Env) (mp : Pool) : List Address :=
  env.cfg.priorityAddrs.map
      (fun actor => ((resolveToKey env mp.curTs actor).map Address.key).getD .undef) ++
    mp.localAddrs.map .key

/-- What `pruneMessages` collects from the pending messages. -/
structure PruneState where
  pruneMsgs : Table MsgCid SignedMessage
  keepCount : Int
  chains : List MsgChain

def collectActor (env : Env) (isProtected : List Address) (lowerBound : Int) (ts : TipSet)
    (st : PruneState) (entry : Address × Table Nat SignedMessage) : PruneState :=
  if entry.1 ∈ isProtected then { st with keepCount := st.keepCount + entry.2.size }
  else
    { st with
      pruneMsgs := (env.order.arrange entry.2.values).foldl
        (fun msgs m => msgs.insert m.message.cid m) st.pruneMsgs
      chains := st.chains ++ createMessageChains env entry.1 entry.1 entry.2 lowerBound ts }

/-- The loop that keeps the messages of the best chains up to the low water
mark. -/
def keepLoop (loWaterMark : Int) :
    List SignedMessage → Int → Table MsgCid SignedMessage → Table MsgCid SignedMessage
  | [], _, pruneMsgs => pruneMsgs
  | m :: rest, keepCount, pruneMsgs =>
      if keepCount < loWaterMark then
        keepLoop loWaterMark rest (keepCount + 1) (pruneMsgs.erase m.message.cid)
      else pruneMsgs

/-- The messages that `pruneMessages` removes. -/
def pruned (env : Env) (mp : Pool) (lowerBound : Int) (ts : TipSet) : List SignedMessage :=
  let pending := (getPendingMessages env mp ts ts).toOption.getD ∅
  let entries := env.order.arrange (pending.entries.map fun e => (e.1, e.2))
  let st := entries.foldl (collectActor env (protectedActors env mp) lowerBound ts) ⟨∅, 0, []⟩
  let chains := env.sorter.sort MsgChain.before st.chains
  env.order.arrange
    (keepLoop env.cfg.sizeLimitLow (chains.flatMap MsgChain.msgs) st.keepCount st.pruneMsgs).values

def pruneMessages (env : Env) (mp : Pool) (ts : TipSet) : Pool × Except MpoolError Unit :=
  match env.chainComputeBaseFee ts with
  | none => (mp, .error .baseFee)
  | some baseFee =>
      let lowerBound := getBaseFeeLowerBound baseFee baseFeeLowerBoundFactor
      ((pruned env mp lowerBound ts).foldl
        (fun mp m => remove env mp m.message.fromAddr m.message.nonce false) mp, .ok ())

/-- `pruneExcessMessages`; `ready` says whether the cooldown is over. -/
def pruneExcessMessages (env : Env) (mp : Pool) (ts : TipSet) (ready : Bool) :
    Pool × Except MpoolError Unit :=
  if mp.currentSize < env.cfg.sizeLimitHigh then (mp, .ok ())
  else if ready then pruneMessages env mp ts
  else (mp, .error .pruneCooldown)

/-! ## Runs of the pool -/

/-- The operations that touch the pending messages, each with the surroundings it
finds. `prune` takes the tipset it read before it took the lock. A head change is
one operation here; the removals and additions it makes under the lock one by one
are also operations of their own. -/
inductive PoolOp where
  | push (env : Env) (m : SignedMessage)
  | pushUntrusted (env : Env) (m : SignedMessage)
  | add (env : Env) (m : SignedMessage)
  | addSkipChecks (env : Env) (m : SignedMessage)
  | loadLocal (env : Env)
  | remove (env : Env) (fromAddr : Address) (nonce : Nat) (applied : Bool)
  | prune (env : Env) (ts : TipSet) (ready : Bool)
  | headChange (env : Env) (revert apply : List TipSet)
  | clear (env : Env) (alsoLocal : Bool)

def poolStep (mp : Pool) : PoolOp → Option Pool
  | .push env m => some (push env mp m).1
  | .pushUntrusted env m => some (pushUntrusted env mp m).1
  | .add env m => some (add env mp m).1
  | .addSkipChecks env m => some (addSkipChecks env mp m).1
  | .loadLocal env => some (loadLocal env mp).1
  | .remove env fromAddr nonce applied => some (remove env mp fromAddr nonce applied)
  | .prune env ts ready => some (pruneExcessMessages env mp ts ready).1
  | .headChange env revert apply => some (headChange env mp revert apply).1
  | .clear env alsoLocal => some (clear env mp alsoLocal)

/-- A `Clear` of everything finds no pending message, and a `Clear` without the
local senders none of another sender. -/
def ClearsNothing (mp : Pool) : PoolOp → Prop
  | .clear _ alsoLocal => ∀ k n, mp.pendingAt k n ≠ none → alsoLocal = false ∧ k ∈ mp.localAddrs
  | _ => True

namespace SizeLemmas

open PoolLemmas

variable {env : Env} {mp mp' : Pool}

/-- What every pass of a loop leaves unchanged, the loop does. -/
theorem foldl_unchanged {α β : Type} {f : β → α → β} (measure : β → Int)
    (hf : ∀ b a, measure (f b a) = measure b) (l : List α) (b : β) :
    measure (l.foldl f b) = measure b :=
  List.foldlRecOn (motive := fun b' => measure b' = measure b) l f rfl
    fun b' hb a _ => (hf b' a).trans hb

section

variable (env mp)

theorem pruneExcessMessages_drift (ts : TipSet) (ready : Bool) :
    (pruneExcessMessages env mp ts ready).1.drift = mp.drift := by
  unfold pruneExcessMessages
  split
  · rfl
  · split
    · unfold pruneMessages
      split
      · rfl
      · exact foldl_unchanged Pool.drift (fun mp m => remove_drift env mp _ _ false) _ mp
    · rfl

/-! ## Head changes -/

theorem revertTipSet_drift (st : Replay) (ts : TipSet) :
    (revertTipSet env st ts).mp.drift = st.mp.drift := by
  unfold revertTipSet
  split
  · rfl
  · split <;> rfl

theorem rmApplied_drift (st : Replay) (key : Address × Nat) :
    (rmApplied env st key).mp.drift = st.mp.drift := by
  unfold rmApplied
  split
  · rfl
  · exact remove_drift env st.mp _ _ true

theorem applyTipSet_drift (st : Replay) (ts : TipSet) :
    (applyTipSet env st ts).mp.drift = st.mp.drift := by
  have hblock : ∀ (st : Replay) (b : BlockHeader),
      (applyBlock env st b).mp.drift = st.mp.drift := by
    intro st b
    unfold applyBlock
    split
    · rfl
    · exact foldl_unchanged (·.mp.drift) (rmApplied_drift env) _ st
  exact foldl_unchanged (·.mp.drift) hblock ts.blks { st with mp := { st.mp with curTs := ts } }

theorem headChange_drift (revert apply : List TipSet) :
    (headChange env mp revert apply).1.drift = mp.drift := by
  have hreadd : ∀ (mp : Pool) (m : SignedMessage), (readd env mp m).drift = mp.drift :=
    fun mp m => (addLocked_effect env mp m false false).drift
  refine (foldl_unchanged Pool.drift hreadd _ _).trans ?_
  refine (foldl_unchanged (fun st : Replay => st.mp.drift) (applyTipSet_drift env) _ _).trans ?_
  exact foldl_unchanged (fun st : Replay => st.mp.drift) (revertTipSet_drift env) _ _

/-! ## `Clear` -/

theorem pendingAt_eq_none_iff (k : KeyAddress) : (∀ n, mp.pendingAt k n = none) ↔
      ∀ mset, mp.pending.get? k = some mset → mset.msgs.size = 0 := by
  unfold Pool.pendingAt
  cases mp.pending.get? k with
  | none => simp
  | some mset =>
    simp only [Option.bind_some, Option.some.injEq, forall_eq', Table.size_eq_zero_iff]

/-- `Clear` leaves the number of messages as it is exactly when it drops none. -/
theorem count_clear_iff (alsoLocal : Bool) :
    (clear env mp alsoLocal).count = mp.count ↔ ClearsNothing mp (.clear env alsoLocal) := by
  cases alsoLocal with
  | true =>
    have hcount : (clear env mp true).count = 0 := rfl
    rw [hcount, eq_comm]
    unfold Pool.count
    rw [Table.total_eq_zero_iff]
    constructor
    · intro h k n hn
      exact absurd ((pendingAt_eq_none_iff mp k).mpr (h k) n) hn
    · intro h k
      refine (pendingAt_eq_none_iff mp k).mp fun n => ?_
      by_contra hn
      cases (h k n hn).1
  | false =>
    show (mp.pending.eraseAll _).total _ = mp.pending.total _ ↔ _
    rw [Table.total_eraseAll_eq_iff]
    constructor
    · intro h k n hn
      refine ⟨rfl, ?_⟩
      by_contra hlocal
      refine hn ((pendingAt_eq_none_iff mp k).mpr (fun mset hms => ?_) n)
      exact h k (List.mem_filter.mpr ⟨Table.mem_keys_iff.mpr ⟨mset, hms⟩, by simpa using hlocal⟩)
        mset hms
    · intro h k hk
      refine (pendingAt_eq_none_iff mp k).mp fun n => ?_
      by_contra hn
      have hlocal := (h k n hn).2
      have := (List.mem_filter.mp hk).2
      simp [hlocal] at this

end

theorem drift_step {op : PoolOp} (h : mp.drift = 0) (hstep : poolStep mp op = some mp') :
    mp'.drift = 0 ↔ ClearsNothing mp op := by
  have hkeep : mp'.drift = mp.drift → ∀ {P : Prop}, P → (mp'.drift = 0 ↔ P) :=
    fun he _ hp => ⟨fun _ => hp, fun _ => he.trans h⟩
  cases op <;> obtain rfl := Option.some.inj hstep
  case push env m => exact hkeep (pushWith_effect env mp m false).drift trivial
  case pushUntrusted env m => exact hkeep (pushWith_effect env mp m true).drift trivial
  case add env m => exact hkeep (add_effect env mp m).drift trivial
  case addSkipChecks env m => exact hkeep (addLocked_effect env mp m false false).drift trivial
  case loadLocal env => exact hkeep (loadLocalLoop_drift env mp _) trivial
  case remove env fromAddr nonce applied =>
    exact hkeep (remove_drift env mp fromAddr nonce applied) trivial
  case prune env ts ready => exact hkeep (pruneExcessMessages_drift env mp ts ready) trivial
  case headChange env revert apply => exact hkeep (headChange_drift env mp revert apply) trivial
  case clear env alsoLocal =>
    have hsize : (clear env mp alsoLocal).currentSize = mp.currentSize := by
      unfold clear
      split <;> rfl
    rw [← count_clear_iff]
    unfold Pool.drift at h ⊢
    omega

end SizeLemmas

open SizeLemmas in
/-- Over a run from a pool with the right `currentSize`, it is the number of
pending messages in every state exactly when every `Clear` of the run drops no
message. -/
theorem currentSize_iff_clearsNothing {mp : Pool} (hstart : mp.currentSize = mp.count)
    {ops : List PoolOp} {states : List Pool} (h : trace poolStep mp ops = some states) :
    (∀ mp' ∈ states, mp'.currentSize = mp'.count) ↔ Guarded poolStep ClearsNothing mp ops := by
  have hdrift : ∀ mp : Pool, mp.currentSize = mp.count ↔ mp.drift = 0 := by
    intro mp
    unfold Pool.drift
    omega
  simp only [hdrift] at hstart ⊢
  have hinv : ∀ (s : Pool) (a : PoolOp) (s' : Pool), True → s.drift = 0 → ClearsNothing s a →
      poolStep s a = some s' → True := fun _ _ _ _ _ _ _ => trivial
  exact trace_forall_iff hinv (fun s a s' _ hs hstep => drift_step hs hstep) trivial hstart h

/-! ## A message that is cleared -/

def fundedEnv : Env :=
  calmEnv (fun _ _ => some ⟨0, 1000000000000⟩) (fun _ => []) (fun _ => none)

/-- A `Clear` of the empty pool, then one message. -/
def clearThenAdd : List PoolOp :=
  [.clear fundedEnv true, .add fundedEnv (transfer (.key payer) 0)]

theorem currentSize_iff_clearsNothing_clearThenAdd :
    ∃ states, trace poolStep (emptyPool rootTs) clearThenAdd = some states ∧
      ((∀ mp' ∈ states, mp'.currentSize = mp'.count) ↔
        Guarded poolStep ClearsNothing (emptyPool rootTs) clearThenAdd) :=
  ⟨_, rfl, currentSize_iff_clearsNothing rfl rfl⟩

/-- One message, then a `Clear`: the pool is empty and `currentSize` is still 1. -/
theorem clear_keeps_currentSize :
    ∃ states, trace poolStep (emptyPool rootTs)
        [.add fundedEnv (transfer (.key payer) 0), .clear fundedEnv true] = some states ∧
      ∃ mp' ∈ states, mp'.currentSize = 1 ∧ mp'.count = 0 := by
  refine ⟨_, rfl, clear fundedEnv (add fundedEnv (emptyPool rootTs)
    (transfer (.key payer) 0)).1 true, by simp, ?_, rfl⟩
  decide

end OpenDsn.Mpool
