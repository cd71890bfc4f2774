import OpenDsn.Chain.Store
import OpenDsn.Lib.Slots

/-!
# Checkpoints and the length of forks

Any run of calls on the chain store, from an empty store. Offered tipsets move the
head only across forks that `exceedsForkLength` lets pass; forced heads remove the
checkpoint.

* `checkpoint_on_chain`: a checkpoint is always the head or one of its ancestors, and
  no call but a forced head abandons `ForkLengthThreshold` or more tipsets;
* `callResult_returns`: the loops of every call end.
-/

namespace OpenDsn.Chain

open Lib List

/-- A call on the store. -/
inductive StoreOp
  | putTipSet (ts : TipSet)
  | addBlock (b : BlockHeader)
  | addToTipSetTracker (b : BlockHeader) (first : Option Nat)
  | maybeTakeHeavierTipSet (ts : TipSet)
  | setCheckpoint (ts : TipSet)
  | removeCheckpoint
  | setHead (ts : TipSet)
  | forceHeadSilent (ts : TipSet)

/-- The store after a call, and the error it returned. -/
def callResult (env : StoreEnv) (cs : ChainStore) : StoreOp → ChainStore × Except StoreError Unit
  | .putTipSet ts => putTipSet env cs ts
  | .addBlock b => addBlock env cs b
  | .addToTipSetTracker b first => (addToTipSetTracker cs b first, .ok ())
  | .maybeTakeHeavierTipSet ts => commit cs (maybeTakeHeavierTipSet env cs ts)
  | .setCheckpoint ts => commit cs (setCheckpoint env cs ts)
  | .removeCheckpoint => (removeCheckpoint cs, .ok ())
  | .setHead ts => (setHead cs ts, .ok ())
  | .forceHeadSilent ts => (forceHeadSilent cs ts, .ok ())

def emptyStore : ChainStore := ⟨[], fun _ => [], none, none⟩

/-- The store after some calls. -/
def storeAfter (env : StoreEnv) (ops : List StoreOp) : ChainStore :=
  ops.foldl (fun cs op => (callResult env cs op).1) emptyStore

/-- The tipset or block that the call is given is one of the headers. -/
def StoreOp.Within (u : Headers) : StoreOp → Prop
  | .putTipSet ts => u.Has ts
  | .addBlock b => u.Knows b
  | .addToTipSetTracker _ _ => True
  | .maybeTakeHeavierTipSet ts => u.Has ts
  | .setCheckpoint ts => u.Has ts
  | .removeCheckpoint => True
  | .setHead ts => u.Has ts
  | .forceHeadSilent ts => u.Has ts

instance (u : Headers) : DecidablePred (StoreOp.Within u)
  | .putTipSet ts => inferInstanceAs (Decidable (u.Has ts))
  | .addBlock b => inferInstanceAs (Decidable (u.Knows b))
  | .addToTipSetTracker _ _ => inferInstanceAs (Decidable True)
  | .maybeTakeHeavierTipSet ts => inferInstanceAs (Decidable (u.Has ts))
  | .setCheckpoint ts => inferInstanceAs (Decidable (u.Has ts))
  | .removeCheckpoint => inferInstanceAs (Decidable True)
  | .setHead ts => inferInstanceAs (Decidable (u.Has ts))
  | .forceHeadSilent ts => inferInstanceAs (Decidable (u.Has ts))

/-- The call sets the head without `MaybeTakeHeavierTipSet`. -/
def StoreOp.forcesHead : StoreOp → Bool
  | .setHead _ => true
  | .forceHeadSilent _ => true
  | _ => false

/-- A checkpoint is the head or one of its ancestors. -/
def CheckpointOnChain (u : Headers) (env : StoreEnv) (cs : ChainStore) : Prop :=
  ∀ cp, cs.checkpoint = some cp → ∃ head, cs.heaviest = some head ∧ Descends (u.parent env) head cp

/-- The move of the head from `cs` to `cs'` abandons fewer tipsets than the
threshold. -/
def ShortFork (u : Headers) (env : StoreEnv) (cs cs' : ChainStore) : Prop :=
  ∀ old new, cs.heaviest = some old → cs'.heaviest = some new →
    (abandoned (u.parent env) old new).encard < forkLengthThreshold

namespace CheckpointLemmas

open StoreLemmas

variable {env : StoreEnv} {u : Headers} {cs cs' : ChainStore} {ts : TipSet}

/-- What the store has and points to is among the headers. -/
structure StoreInv (u : Headers) (env : StoreEnv) (cs : ChainStore) : Prop where
  backs : u.Backs cs
  head : ∀ head, cs.heaviest = some head → u.Has head
  onChain : CheckpointOnChain u env cs

/-- The two stores differ in their blocks and their tracker only. -/
structure SameHead (cs cs' : ChainStore) : Prop where
  heaviest : cs'.heaviest = cs.heaviest
  checkpoint : cs'.checkpoint = cs.checkpoint

/-- A head that stays where it is abandons nothing. -/
theorem shortFork_of_same (h : cs'.heaviest = cs.heaviest) : ShortFork u env cs cs' := by
  intro old new hold hnew
  rw [h, hold] at hnew
  cases hnew
  calc (abandoned (u.parent env) old old).encard
      ≤ (0 : Nat) := abandoned_encard_le .here (.refl _)
    _ < forkLengthThreshold := Nat.cast_lt.mpr (by decide)

/-! ### Offers -/

/-- An offer is declined, or it is within the fork limit and becomes the head. -/
theorem maybeTakeHeavierTipSet_ok (h : maybeTakeHeavierTipSet env cs ts = .ok cs') :
    cs' = cs ∨ cs' = takeHeaviestTipSet cs ts ∧
      exceedsForkLength env cs cs.heaviest ts = .ok false := by
  obtain ⟨w, -, h⟩ := ok_of_bind h
  obtain ⟨heaviestW, -, h⟩ := ok_of_bind h
  obtain ⟨heavier, -, h⟩ := ok_of_bind h
  split at h
  · obtain ⟨exceeds, hexceeds, h⟩ := ok_of_bind h
    split at h
    · cases h
      exact .inl rfl
    · next hfalse =>
      cases h
      rw [Bool.not_eq_true] at hfalse
      exact .inr ⟨rfl, hfalse ▸ hexceeds⟩
  · cases h
    exact .inl rfl

variable {b : BlockHeader} {r : Except StoreError ChainStore} {blks : List BlockHeader}

theorem expandLoop_knows (hback : u.Backs cs) {todo : List BlockCid}
    {all out : List BlockHeader} {miners : List Nat} (hall : ∀ x ∈ all, u.Knows x)
    (h : expandLoop env cs b todo all miners = .ok out) : ∀ x ∈ out, u.Knows x := by
  induction todo generalizing all miners with
  | nil => cases h; exact hall
  | cons bhc rest ih =>
    unfold expandLoop at h
    split at h
    · exact ih hall h
    · split at h
      · cases h
      next x hx =>
      split at h
      · exact ih hall h
      · split at h
        · exact ih (forall_mem_snoc hall (hback x (getBlock_ok hx).1)) h
        · exact ih hall h

theorem expandTipset_has (hback : u.Backs cs) (hb : u.Knows b)
    (h : expandTipset env cs b = .ok ts) : u.Has ts := by
  unfold expandTipset at h
  split at h
  · cases h
  next all hall =>
  have hknows := expandLoop_knows hback (forall_mem_singleton.mpr hb) hall
  cases hnew : newTipSet env all with
  | error e => rw [hnew] at h; cases h
  | ok ts' =>
    rw [hnew] at h
    cases h
    exact fun x hx => hknows x ((newTipSet_perm hnew).mem_iff.mp hx)

/-! ### Checkpoints -/

theorem checkMainChain_ok (hback : u.Backs cs) {heaviest : TipSet} (hh : u.Has heaviest)
    (hts : u.Has ts) (h : checkMainChain env cs ts heaviest = .ok ()) :
    Descends (u.parent env) heaviest ts := by
  unfold checkMainChain at h
  split at h
  · next heq =>
    rw [(equals_iff hts hh).mp heq]
    exact .refl _
  · split at h
    · cases h
    next anc hanc =>
    split at h
    · next htrue =>
      rw [htrue] at hanc
      unfold isAncestorOf at hanc
      split at hanc
      · cases hanc
      · exact isAncestorLoop_ok hback hts hh hanc
    · cases h

/-! ### The calls return -/

theorem weightOf_returns (o : Option TipSet) : weightOf env o ≠ .error .outOfFuel := by
  unfold weightOf
  split <;> exact nofun

theorem isHeavier_returns (w heaviestW : Int) :
    isHeavier env cs ts w heaviestW ≠ .error .outOfFuel := by
  unfold isHeavier
  split
  · split <;> exact nofun
  · exact nofun

theorem isAncestorOf_returns (hback : u.Backs cs) (a : TipSet) (hts : u.Has ts) :
    isAncestorOf env cs a ts ≠ .error .outOfFuel := by
  unfold isAncestorOf
  split
  · exact nofun
  · exact isAncestorLoop_returns hback a hts (le_refl _)

theorem checkMainChain_returns (hback : u.Backs cs) {heaviest : TipSet} (hh : u.Has heaviest) :
    checkMainChain env cs ts heaviest ≠ .error .outOfFuel := by
  unfold checkMainChain
  split
  · exact nofun
  · split
    · next e he =>
      rintro ⟨⟩
      exact isAncestorOf_returns hback ts hh he
    · split <;> exact nofun

theorem commit_returns (h : r ≠ .error .outOfFuel) : (commit cs r).2 ≠ .error .outOfFuel := by
  cases r with
  | error e => exact fun heq => h (by cases heq; rfl)
  | ok cs' => exact nofun

section

variable (hinv : StoreInv u env cs)
include hinv

theorem exceedsForkLength_returns (hts : u.Has ts) :
    exceedsForkLength env cs cs.heaviest ts ≠ .error .outOfFuel := by
  unfold exceedsForkLength
  split
  · exact nofun
  · next synced hs => exact exceedsLoop_returns hinv.backs (hinv.head synced hs) hts

theorem maybeTakeHeavierTipSet_returns (hts : u.Has ts) :
    maybeTakeHeavierTipSet env cs ts ≠ .error .outOfFuel := by
  intro h
  rcases error_of_bind h with h | ⟨w, -, h⟩
  · exact weightOf_returns _ h
  rcases error_of_bind h with h | ⟨heaviestW, -, h⟩
  · exact weightOf_returns _ h
  rcases error_of_bind h with h | ⟨heavier, -, h⟩
  · exact isHeavier_returns w heaviestW h
  split at h
  · rcases error_of_bind h with h | ⟨exceeds, -, h⟩
    · exact exceedsForkLength_returns hinv hts h
    · split at h <;> cases h
  · cases h

theorem offerExpanded_returns (hb : u.Knows b) :
    offerExpanded env cs b ≠ .error .outOfFuel := by
  unfold offerExpanded
  split
  · exact nofun
  · next expanded hexp =>
    exact maybeTakeHeavierTipSet_returns hinv (expandTipset_has hinv.backs hb hexp)

theorem setCheckpoint_returns : setCheckpoint env cs ts ≠ .error .outOfFuel := by
  unfold setCheckpoint
  split
  · exact nofun
  · next heaviest hh =>
    split_ifs
    · exact nofun
    · exact nofun
    · split
      · next e he =>
        rintro ⟨⟩
        exact checkMainChain_returns hinv.backs (hinv.head heaviest hh) he
      · exact nofun

/-! ### What the calls keep -/

theorem StoreInv.sameHead (hs : SameHead cs cs') (hback : u.Backs cs') : StoreInv u env cs' where
  backs := hback
  head head hh := hinv.head head (by rw [← hs.heaviest]; exact hh)
  onChain cp hcp := by
    rw [hs.checkpoint] at hcp
    rw [hs.heaviest]
    exact hinv.onChain cp hcp

theorem offer_keeps (hts : u.Has ts)
    (h : maybeTakeHeavierTipSet env cs ts = .ok cs') :
    StoreInv u env cs' ∧ ShortFork u env cs cs' := by
  rcases maybeTakeHeavierTipSet_ok h with rfl | ⟨rfl, hexceeds⟩
  · exact ⟨hinv, shortFork_of_same rfl⟩
  -- from the old head back to the common ancestor, and up to the new one
  have hfork : ∀ old, cs.heaviest = some old → ∃ n < forkLengthThreshold, ∃ c,
      Back (u.parent env) n old c ∧ Descends (u.parent env) ts c ∧
        ∀ cp, cs.checkpoint = some cp → Descends (u.parent env) old cp →
          Descends (u.parent env) c cp := by
    intro old hold
    rw [hold] at hexceeds
    exact exceedsLoop_false hinv.backs (hinv.head old hold) hts hexceeds
  refine ⟨⟨hinv.backs, fun head hh => ?_, fun cp hcp => ⟨ts, rfl, ?_⟩⟩, fun old new hold hnew => ?_⟩
  · cases hh
    exact hts
  · obtain ⟨old, hold, hdesc⟩ := hinv.onChain cp hcp
    obtain ⟨n, -, c, -, hnew, hkeep⟩ := hfork old hold
    exact hnew.trans (hkeep cp hcp hdesc)
  · cases hnew
    obtain ⟨n, hn, c, hback, hnew, -⟩ := hfork old hold
    calc (abandoned (u.parent env) old ts).encard
        ≤ n := abandoned_encard_le hback hnew
      _ < forkLengthThreshold := Nat.cast_lt.mpr hn

theorem commit_keeps (h : ∀ cs', r = .ok cs' → StoreInv u env cs' ∧ ShortFork u env cs cs') :
    StoreInv u env (commit cs r).1 ∧ ShortFork u env cs (commit cs r).1 := by
  cases r with
  | error e => exact ⟨hinv, shortFork_of_same rfl⟩
  | ok cs' => exact h cs' rfl

theorem persist_keeps (hblks : ∀ b ∈ blks, u.Knows b) :
    StoreInv u env (persistBlockHeaders cs blks) :=
  hinv.sameHead ⟨rfl, rfl⟩ (forall_mem_append.mpr ⟨hblks, hinv.backs⟩)

/-- Blocks are stored, then the expanded tipset is offered. -/
theorem put_keeps (hblks : ∀ b ∈ blks, u.Knows b) (hb : u.Knows b) :
    let stored := persistBlockHeaders cs blks
    let put := (commit stored (offerExpanded env stored b)).1
    StoreInv u env put ∧ ShortFork u env cs put := by
  have hinv' := persist_keeps hinv hblks
  refine commit_keeps hinv' fun cs' h => ?_
  unfold offerExpanded at h
  split at h
  · cases h
  · next expanded hexp => exact offer_keeps hinv' (expandTipset_has hinv'.backs hb hexp) h

theorem setCheckpoint_keeps (hts : u.Has ts)
    (h : setCheckpoint env cs ts = .ok cs') : StoreInv u env cs' ∧ ShortFork u env cs cs' := by
  unfold setCheckpoint at h
  split at h
  · cases h
  next heaviest hh =>
  split_ifs at h
  split at h
  · cases h
  next hmain =>
  cases h
  refine ⟨⟨hinv.backs, hinv.head, fun cp hcp => ⟨heaviest, hh, ?_⟩⟩, shortFork_of_same rfl⟩
  cases hcp
  exact checkMainChain_ok hinv.backs (hinv.head heaviest hh) hts hmain

theorem callResult_keeps {op : StoreOp} (hop : op.Within u) :
    StoreInv u env (callResult env cs op).1 ∧
      (op.forcesHead = false → ShortFork u env cs (callResult env cs op).1) := by
  cases op with
  | putTipSet ts =>
    have h := put_keeps hinv hop (hop _ first_mem)
    exact ⟨h.1, fun _ => h.2⟩
  | addBlock b =>
    have h := put_keeps hinv (forall_mem_singleton.mpr hop) hop
    exact ⟨h.1, fun _ => h.2⟩
  | addToTipSetTracker b first =>
    have hsame : SameHead cs (addToTipSetTracker cs b first) := by
      unfold addToTipSetTracker
      split <;> exact ⟨rfl, rfl⟩
    have hback : u.Backs (addToTipSetTracker cs b first) := by
      unfold addToTipSetTracker
      split <;> exact hinv.backs
    exact ⟨hinv.sameHead hsame hback, fun _ => shortFork_of_same hsame.heaviest⟩
  | maybeTakeHeavierTipSet ts =>
    have h := commit_keeps hinv fun cs' h => offer_keeps hinv hop h
    exact ⟨h.1, fun _ => h.2⟩
  | setCheckpoint ts =>
    have h := commit_keeps hinv fun cs' h => setCheckpoint_keeps hinv hop h
    exact ⟨h.1, fun _ => h.2⟩
  | removeCheckpoint =>
    exact ⟨⟨hinv.backs, hinv.head, fun cp hcp => nomatch hcp⟩, fun _ => shortFork_of_same rfl⟩
  | setHead ts | forceHeadSilent ts =>
    refine ⟨⟨hinv.backs, fun head hh => ?_, fun cp hcp => nomatch hcp⟩, nofun⟩
    cases hh
    exact hop

end

theorem storeAfter_inv (env : StoreEnv) {ops : List StoreOp} (hops : ∀ op ∈ ops, op.Within u) :
    StoreInv u env (storeAfter env ops) := by
  have hempty : StoreInv u env emptyStore :=
    ⟨forall_mem_nil _, nofun, nofun⟩
  exact foldlRecOn (motive := StoreInv u env) ops _ hempty
    fun cs hcs op hop => (callResult_keeps hcs (hops op hop)).1

end CheckpointLemmas

open CheckpointLemmas in
/-- After any calls, a checkpoint is the head or one of its ancestors, and the next
call abandons fewer than `ForkLengthThreshold` tipsets of the old chain, unless it
forces the head. -/
theorem checkpoint_on_chain (env : StoreEnv) (u : Headers) {ops : List StoreOp}
    (hops : ∀ op ∈ ops, op.Within u) :
    CheckpointOnChain u env (storeAfter env ops) ∧
      ∀ op, op.Within u → op.forcesHead = false →
        ShortFork u env (storeAfter env ops) (callResult env (storeAfter env ops) op).1 := by
  have hinv := storeAfter_inv env hops
  exact ⟨hinv.onChain, fun op hop hforce => (callResult_keeps hinv hop).2 hforce⟩

open CheckpointLemmas StoreLemmas in
/-- No call waits forever in a loop. -/
theorem callResult_returns (env : StoreEnv) (u : Headers) {ops : List StoreOp}
    (hops : ∀ op ∈ ops, op.Within u) {op : StoreOp} (hop : op.Within u) :
    (callResult env (storeAfter env ops) op).2 ≠ .error .outOfFuel := by
  have hinv := storeAfter_inv env hops
  cases op with
  | putTipSet ts =>
    exact commit_returns (offerExpanded_returns (persist_keeps hinv hop) (hop _ first_mem))
  | addBlock b =>
    exact commit_returns
      (offerExpanded_returns (persist_keeps hinv (forall_mem_singleton.mpr hop)) hop)
  | maybeTakeHeavierTipSet ts => exact commit_returns (maybeTakeHeavierTipSet_returns hinv hop)
  | setCheckpoint ts => exact commit_returns (setCheckpoint_returns hinv)
  | addToTipSetTracker | removeCheckpoint | setHead | forceHeadSilent => exact nofun

/-! ## A run -/

/-- The headers of `forkTree`. -/
def forkHeader (c : BlockCid) : Option BlockHeader :=
  if c = 0 then some rootTs.first
  else if c = 1 then some leftTs.first
  else if c = 2 then some rightTs.first
  else none

theorem forkHeader_cases {c : BlockCid} (h : forkHeader c = some b) :
    (c = 0 ∧ b = rootTs.first) ∨ (c = 1 ∧ b = leftTs.first) ∨ (c = 2 ∧ b = rightTs.first) := by
  unfold forkHeader at h
  split_ifs at h with h0 h1 h2
  · exact .inl ⟨h0, (Option.some.inj h).symm⟩
  · exact .inr (.inl ⟨h1, (Option.some.inj h).symm⟩)
  · exact .inr (.inr ⟨h2, (Option.some.inj h).symm⟩)

def forkHeaders : Headers where
  header := forkHeader
  header_cid h := by
    rcases forkHeader_cases h with ⟨rfl, rfl⟩ | ⟨rfl, rfl⟩ | ⟨rfl, rfl⟩ <;> rfl
  parent_lower h hp hpb := by
    rcases forkHeader_cases h with ⟨rfl, rfl⟩ | ⟨rfl, rfl⟩ | ⟨rfl, rfl⟩
    · cases hp
    all_goals
      cases List.mem_singleton.mp hp
      cases hpb
      decide

/-- Tickets and miners from the CIDs; a higher tipset is heavier. -/
def plainEnv : StoreEnv where
  sorter := stableSorter
  miner b := b.cid
  ticket b := [UInt8.ofNat b.cid]
  digest t := (t.map UInt8.toNat).sum
  weight
    | none => some (-1)
    | some ts => some ts.height

/-- The left tipset is a checkpoint, so that the heavier right one is declined. -/
def leftCheckpoint : List StoreOp :=
  [.putTipSet rootTs, .putTipSet leftTs, .setCheckpoint leftTs, .putTipSet rightTs]

theorem checkpoint_on_chain_declines :
    (storeAfter plainEnv leftCheckpoint).checkpoint = some leftTs ∧
      CheckpointOnChain forkHeaders plainEnv (storeAfter plainEnv leftCheckpoint) :=
  ⟨by decide, (checkpoint_on_chain plainEnv forkHeaders (by decide)).1⟩

theorem callResult_returns_declines :
    (callResult plainEnv (storeAfter plainEnv leftCheckpoint) (.setCheckpoint rightTs)).2 ≠
      .error .outOfFuel :=
  callResult_returns plainEnv forkHeaders (by decide) (by decide)

end OpenDsn.Chain
