import OpenDsn.Lib.Fork

/-!
# Tipsets, block trees and `ReorgOps`

The chain store's view of the chain (`chain/types/tipset.go`,
`chain/store/store.go`). A tipset is a non-empty list of blocks of one height
with the same parents; it is known by its key, the list of its block CIDs.
`reorgOps` is the store's `ReorgOps`: from two tipsets it walks the two chains
backwards, always from the higher one, until it stands on a common ancestor.

A `BlockTree` is a store in which every tipset leads down to one genesis
tipset. There the walk ends, and `reorgOps_eq` gives its result in terms of
the two chains: the reverts are the first chain outside the second, the
applies the second chain outside the first, both from the tip down. `getPath`
turns them into steps that lead from the one tip to the other
(`getPath_replay`). `nearestCommonAncestor` is right for a tipset off the other
chain, and panics for one that is on it.
-/

namespace OpenDsn.Chain

open Lib List Option

abbrev BlockCid := Nat

/-- The CIDs of the blocks of a tipset, in order. -/
abbrev TipSetKey := List BlockCid

/-- The fields of a block header that the chain store and the message pool
read. -/
structure BlockHeader where
  cid : BlockCid
  parents : List BlockCid
  height : Nat
  parentBaseFee : Int
deriving DecidableEq

/-- A tipset as `NewTipSet` returns it. -/
structure TipSet where
  blks : List BlockHeader
  blks_ne : blks ≠ []
  same_height : ∀ b ∈ blks, b.height = (blks.head blks_ne).height
  same_parents : ∀ b ∈ blks, b.parents = (blks.head blks_ne).parents
deriving DecidableEq

namespace TipSet

def cids (ts : TipSet) : List BlockCid := ts.blks.map BlockHeader.cid

def key (ts : TipSet) : TipSetKey := ts.cids

def height (ts : TipSet) : Nat := (ts.blks.head ts.blks_ne).height

def parents (ts : TipSet) : TipSetKey := (ts.blks.head ts.blks_ne).parents

def equals (ts ots : TipSet) : Bool :=
  ts.height = ots.height ∧ ts.cids = ots.cids

/-- The tipset of a single block. -/
def single (b : BlockHeader) : TipSet where
  blks := [b]
  blks_ne := List.cons_ne_nil b []
  same_height := by simp
  same_parents := by simp

end TipSet

/-- The loop of `ReorgOps`. `left` and `right` are the two walkers, `leftChain`
and `rightChain` what they have passed. Every round lowers one of the walkers,
so the sum of their heights bounds the number of rounds. -/
def reorgOpsLoop (lts : TipSetKey → Option TipSet) :
    Nat → TipSet → TipSet → List TipSet → List TipSet → Option (List TipSet × List TipSet)
  | 0, left, right, leftChain, rightChain =>
      if left.equals right then some (leftChain, rightChain) else none
  | fuel + 1, left, right, leftChain, rightChain =>
      if left.equals right then some (leftChain, rightChain)
      else if left.height > right.height then do
        let par ← lts left.parents
        reorgOpsLoop lts fuel par right (leftChain ++ [left]) rightChain
      else do
        let par ← lts right.parents
        reorgOpsLoop lts fuel left par leftChain (rightChain ++ [right])

/-- `ReorgOps(a, b)`: the tipsets to revert and the tipsets to apply, both
from the tip down. -/
def reorgOps (lts : TipSetKey → Option TipSet) (a b : TipSet) :
    Option (List TipSet × List TipSet) :=
  reorgOpsLoop lts (a.height + b.height) a b [] []

/-- The head change that `reorgWorker` hands to its notifees: the applies are
reversed, so that they run from the ancestor up. -/
def headChangePath (lts : TipSetKey → Option TipSet) (a b : TipSet) :
    Option (List TipSet × List TipSet) :=
  (reorgOps lts a b).map fun (revert, apply) => (revert, apply.reverse)

/-- A store whose tipsets all descend from one genesis tipset. -/
structure BlockTree where
  loadTipSet : TipSetKey → Option TipSet
  genesis : TipSet
  load_key : ∀ {k : TipSetKey} {ts : TipSet}, loadTipSet k = some ts → ts.key = k
  load_genesis : loadTipSet genesis.key = some genesis
  load_parent : ∀ {k : TipSetKey} {ts : TipSet}, loadTipSet k = some ts → ts ≠ genesis →
    ∃ p, loadTipSet ts.parents = some p ∧ p.height < ts.height

namespace BlockTree

/-- `ts` is a tipset of the tree. -/
def Has (t : BlockTree) (ts : TipSet) : Prop := t.loadTipSet ts.key = some ts

/-- `Walk t ts l`: `l` is the chain of `ts`, from the genesis tipset up. -/
inductive Walk (t : BlockTree) : TipSet → List TipSet → Prop
  | genesis : Walk t t.genesis [t.genesis]
  | child {ts p : TipSet} {l : List TipSet} :
      t.Has ts → t.loadTipSet ts.parents = some p → p.height < ts.height → Walk t p l →
      Walk t ts (l ++ [ts])

variable {t : BlockTree} {a ts b x left right : TipSet} {l A B L R rc : List TipSet}

theorem has_of_load {k : TipSetKey} (h : t.loadTipSet k = some ts) : t.Has ts := by
  unfold Has
  rw [t.load_key h]
  exact h

theorem Walk.has (h : Walk t ts l) : t.Has ts := by
  cases h with
  | genesis => exact t.load_genesis
  | child hts _ _ _ => exact hts

/-- Every tipset of the tree has a chain. -/
theorem Has.walk (h : t.Has ts) : ∃ l, Walk t ts l := by
  generalize hn : ts.height = n
  induction n using Nat.strongRecOn generalizing ts with
  | ind n ih =>
    by_cases hg : ts = t.genesis
    · subst hg
      exact ⟨[t.genesis], Walk.genesis⟩
    · obtain ⟨p, hp, hlt⟩ := t.load_parent h hg
      obtain ⟨l, hl⟩ := ih p.height (hn ▸ hlt) (has_of_load hp) rfl
      exact ⟨l ++ [ts], Walk.child h hp hlt hl⟩

section

variable (h : Walk t ts l)
include h

theorem Walk.genesis_mem : t.genesis ∈ l := by
  induction h with
  | genesis => exact mem_singleton.mpr rfl
  | child _ _ _ _ ih => exact mem_append_left _ ih

theorem Walk.mem_has (hx : x ∈ l) : t.Has x := by
  induction h with
  | genesis => rw [mem_singleton.mp hx]; exact t.load_genesis
  | child hts _ _ _ ih =>
    rcases mem_append.mp hx with hx | hx
    · exact ih hx
    · rw [mem_singleton.mp hx]; exact hts

/-- Along a chain the heights grow: a member that is not the tip is lower. -/
theorem Walk.height_lt (hx : x ∈ l) (hne : x ≠ ts) : x.height < ts.height := by
  induction h with
  | genesis => exact absurd (mem_singleton.mp hx) hne
  | @child ts p l _ _ hlt _ ih =>
    rcases mem_append.mp hx with hx | hx
    · by_cases hxp : x = p
      · rw [hxp]; exact hlt
      · exact Nat.lt_trans (ih hx hxp) hlt
    · exact absurd (mem_singleton.mp hx) hne

theorem Walk.height_le (hx : x ∈ l) : x.height ≤ ts.height := by
  by_cases hne : x = ts
  · exact Nat.le_of_eq (congrArg TipSet.height hne)
  · exact Nat.le_of_lt (h.height_lt hx hne)

theorem Walk.genesis_height_le : t.genesis.height ≤ ts.height :=
  h.height_le h.genesis_mem

theorem Walk.unique {l' : List TipSet} (h' : Walk t ts l') : l = l' := by
  induction h generalizing l' with
  | genesis =>
    cases h' with
    | genesis => rfl
    | child _ _ hlt hw => exact absurd hlt (Nat.not_lt_of_le hw.genesis_height_le)
  | child _ hp hlt hw ih =>
    cases h' with
    | genesis => exact absurd hlt (Nat.not_lt_of_le hw.genesis_height_le)
    | child _ hp' _ hw' =>
      obtain rfl := mem_unique hp hp'
      rw [ih hw']

end

/-- In a tree, `TipSet.Equals` is equality. -/
theorem equals_iff (ha : t.Has a) (hb : t.Has b) : a.equals b = true ↔ a = b := by
  constructor
  · intro h
    have hk : a.key = b.key := (of_decide_eq_true h).2
    have hb' : t.loadTipSet a.key = some b := by rw [hk]; exact hb
    exact mem_unique ha hb'
  · intro h
    subst h
    simp [TipSet.equals]

/-- A walker that is above the other one, or that stands elsewhere at the same
height, is not the genesis tipset: it has a parent and a shorter chain. -/
theorem Walk.parent_of_height (hl : Walk t left L) (hr : Walk t right R) (hne : left ≠ right)
    (hh : right.height ≤ left.height) :
    ∃ p L', t.loadTipSet left.parents = some p ∧ p.height < left.height ∧ Walk t p L' ∧
      L = L' ++ [left] := by
  cases hl with
  | genesis =>
    have hlt := hr.height_lt hr.genesis_mem hne
    omega
  | child _ hp hlt hw => exact ⟨_, _, hp, hlt, hw, rfl⟩

/-- A walker that takes a step is not on the other side, walked or still to walk. -/
theorem Walk.notMem_other (hr : Walk t right R) (hne : left ≠ right)
    (hh : right.height ≤ left.height) (hmem : left ∈ L) (hrc : ∀ x ∈ rc, x ∉ L) :
    left ∉ R ++ rc.reverse := by
  intro hm
  rcases mem_append.mp hm with hm | hm
  · exact Nat.not_lt_of_le hh (hr.height_lt hm hne)
  · exact hrc left (mem_reverse.mp hm) hmem

theorem reorgOpsLoop_self (h : t.Has ts) (fuel : Nat)
    (lc rc : List TipSet) : reorgOpsLoop t.loadTipSet fuel ts ts lc rc = some (lc, rc) := by
  cases fuel <;> simp [reorgOpsLoop, (equals_iff h h).mpr rfl]

/-- What the loop keeps: the two chains still to walk, followed by what was
passed, are the two chains it started from, and nothing that was passed on one
side is on the other side. -/
theorem reorgOpsLoop_fork {fuel : Nat} {lc : List TipSet} (hl : Walk t left L)
    (hr : Walk t right R) (hfuel : left.height + right.height ≤ fuel)
    (hlc : ∀ x ∈ lc, x ∉ R ++ rc.reverse) (hrc : ∀ x ∈ rc, x ∉ L ++ lc.reverse) :
    ∃ stem lc' rc', reorgOpsLoop t.loadTipSet fuel left right lc rc = some (lc', rc') ∧
      L ++ lc.reverse = stem ++ lc'.reverse ∧ R ++ rc.reverse = stem ++ rc'.reverse ∧
      (∀ x ∈ lc', x ∉ R ++ rc.reverse) ∧ ∀ x ∈ rc', x ∉ L ++ lc.reverse := by
  induction fuel generalizing left right L R lc rc with
  | zero =>
    -- both walkers are at height 0, so both are the genesis tipset
    obtain rfl : left = right := by
      by_contra hne
      obtain ⟨p, _, _, hlt, _⟩ := hl.parent_of_height hr hne (by omega)
      omega
    exact ⟨L, lc, rc, reorgOpsLoop_self hl.has 0 lc rc, rfl, by rw [hr.unique hl], hlc, hrc⟩
  | succ fuel ih =>
    obtain rfl | hne := eq_or_ne left right
    · exact ⟨L, lc, rc, reorgOpsLoop_self hl.has _ lc rc, rfl, by rw [hr.unique hl], hlc, hrc⟩
    have hequals : left.equals right = false :=
      Bool.eq_false_iff.mpr fun h => hne ((equals_iff hl.has hr.has).mp h)
    by_cases hh : left.height > right.height
    · obtain ⟨p, L', hp, hlt, hw, rfl⟩ := hl.parent_of_height hr hne (Nat.le_of_lt hh)
      have hmem := hr.notMem_other hne (Nat.le_of_lt hh) (by simp) hrc
      have happ : L' ++ (lc ++ [left]).reverse = L' ++ [left] ++ lc.reverse := by simp
      obtain ⟨stem, lc', rc', hloop, h1, h2, h3, h4⟩ := ih hw hr (by omega)
        (forall_mem_append.mpr ⟨hlc, forall_mem_singleton.mpr hmem⟩) (happ ▸ hrc)
      rw [happ] at h1 h4
      exact ⟨stem, lc', rc', by simp [reorgOpsLoop, hequals, hh, hp, hloop], h1, h2, h3, h4⟩
    · obtain ⟨p, R', hp, hlt, hw, rfl⟩ := hr.parent_of_height hl hne.symm (Nat.le_of_not_lt hh)
      have hmem := hl.notMem_other hne.symm (Nat.le_of_not_lt hh) (by simp) hlc
      have happ : R' ++ (rc ++ [right]).reverse = R' ++ [right] ++ rc.reverse := by simp
      obtain ⟨stem, lc', rc', hloop, h1, h2, h3, h4⟩ := ih hl hw (by omega) (happ ▸ hlc)
        (forall_mem_append.mpr ⟨hrc, forall_mem_singleton.mpr hmem⟩)
      rw [happ] at h2 h3
      exact ⟨stem, lc', rc', by simp [reorgOpsLoop, hequals, hh, hp, hloop], h1, h2, h3, h4⟩

/-- `ReorgOps` returns, and the two chains part where its lists begin. -/
theorem reorgOps_fork (ha : Walk t a A) (hb : Walk t b B) :
    ∃ stem lc rc, reorgOps t.loadTipSet a b = some (lc, rc) ∧ A = stem ++ lc.reverse ∧
      B = stem ++ rc.reverse ∧ (∀ x ∈ lc, x ∉ B) ∧ ∀ x ∈ rc, x ∉ A := by
  have hA : ∀ x ∈ ([] : List TipSet), x ∉ A ++ ([] : List TipSet).reverse :=
    forall_mem_nil _
  have hB : ∀ x ∈ ([] : List TipSet), x ∉ B ++ ([] : List TipSet).reverse :=
    forall_mem_nil _
  simpa [reorgOps] using reorgOpsLoop_fork ha hb (Nat.le_refl _) hB hA

theorem Walk.fork (ha : Walk t a A) (hb : Walk t b B) : Fork A B := by
  obtain ⟨stem, lc, rc, _, hA, hB, hlc, hrc⟩ := reorgOps_fork ha hb
  exact ⟨stem, lc.reverse, rc.reverse, hA, hB, fun x hx => hlc x (mem_reverse.mp hx),
    fun x hx => hrc x (mem_reverse.mp hx)⟩

/-- The result of `ReorgOps` in terms of the two chains. -/
theorem reorgOps_eq (ha : Walk t a A) (hb : Walk t b B) : reorgOps t.loadTipSet a b =
      some (A.reverse.filter (· ∉ B), B.reverse.filter (· ∉ A)) := by
  obtain ⟨stem, lc, rc, hops, hA, hB, hlc, hrc⟩ := reorgOps_fork ha hb
  have h1 : A.filter (· ∉ B) = lc.reverse := by
    subst hA hB
    exact filter_not_mem_left fun x hx => hlc x (mem_reverse.mp hx)
  have h2 : B.filter (· ∉ A) = rc.reverse := by
    subst hA hB
    exact filter_not_mem_left fun x hx => hrc x (mem_reverse.mp hx)
  rw [hops, filter_reverse, filter_reverse, h1, h2, reverse_reverse,
    reverse_reverse]

/-- The head change from `a` to `b`: reverts from the tip down, applies from
the ancestor up. -/
theorem headChangePath_eq (ha : Walk t a A) (hb : Walk t b B) :
    headChangePath t.loadTipSet a b = some (A.reverse.filter (· ∉ B), B.filter (· ∉ A)) := by
  simp [headChangePath, reorgOps_eq ha hb, filter_reverse]

/-- The way back reverts what was applied and applies what was reverted. -/
theorem reorgOps_swap (ha : t.Has a) (hb : t.Has b) :
    reorgOps t.loadTipSet b a = (reorgOps t.loadTipSet a b).map Prod.swap := by
  obtain ⟨A, hA⟩ := ha.walk
  obtain ⟨B, hB⟩ := hb.walk
  rw [reorgOps_eq hA hB, reorgOps_eq hB hA]
  rfl

end BlockTree

/-! ## Example tree (used by the concrete runs of later modules) -/

/-- The genesis tipset of the example tree. -/
def rootTs : TipSet := .single ⟨0, [], 0, 100⟩

/-- A tipset at height 1. -/
def leftTs : TipSet := .single ⟨1, [0], 1, 100⟩

/-- A fork of `leftTs`, one null round later. -/
def rightTs : TipSet := .single ⟨2, [0], 2, 100⟩

/-- The tipset that `forkTree` stores under a key. -/
def forkLoad (k : TipSetKey) : Option TipSet :=
  if k = [0] then some rootTs
  else if k = [1] then some leftTs
  else if k = [2] then some rightTs
  else none

theorem forkLoad_cases {k : TipSetKey} {ts : TipSet} (h : forkLoad k = some ts) :
    (k = [0] ∧ ts = rootTs) ∨ (k = [1] ∧ ts = leftTs) ∨ (k = [2] ∧ ts = rightTs) := by
  unfold forkLoad at h
  split at h
  · next hk => exact .inl ⟨hk, (some.inj h).symm⟩
  · split at h
    · next hk => exact .inr (.inl ⟨hk, (some.inj h).symm⟩)
    · split at h
      · next hk => exact .inr (.inr ⟨hk, (some.inj h).symm⟩)
      · cases h

/-- Two tipsets on one genesis tipset. -/
def forkTree : BlockTree where
  loadTipSet := forkLoad
  genesis := rootTs
  load_key h := by
    rcases forkLoad_cases h with ⟨rfl, rfl⟩ | ⟨rfl, rfl⟩ | ⟨rfl, rfl⟩ <;> rfl
  load_genesis := rfl
  load_parent h hne := by
    rcases forkLoad_cases h with ⟨rfl, rfl⟩ | ⟨rfl, rfl⟩ | ⟨rfl, rfl⟩
    · exact absurd rfl hne
    · exact ⟨rootTs, rfl, by decide⟩
    · exact ⟨rootTs, rfl, by decide⟩

example : reorgOps forkLoad leftTs rightTs = some ([leftTs], [rightTs]) := by decide

theorem reorgOps_swap_fork : reorgOps forkLoad rightTs leftTs = some ([rightTs], [leftTs]) :=
  BlockTree.reorgOps_swap (t := forkTree) (a := leftTs) rfl rfl

/-! ## Paths and common ancestors -/

/-- `api.HeadChange`, as `GetPath` lists it. -/
inductive HeadChange
  | revert (val : TipSet)
  | apply (val : TipSet)

/-- `GetPath`: the reverts from the tip down, then the applies from the ancestor up. -/
def getPath (lts : TipSetKey → Option TipSet) (fromKey toKey : TipSetKey) :
    Option (List HeadChange) := do
  let fts ← lts fromKey
  let tts ← lts toKey
  let (revert, apply) ← reorgOps lts fts tts
  return revert.map .revert ++ apply.reverse.map .apply

/-- One step of a reader of the path: only the current head can be reverted, and only a child
of the current head can be applied. -/
def HeadChange.replay (lts : TipSetKey → Option TipSet) (head : TipSet) :
    HeadChange → Option TipSet
  | .revert ts => if ts = head then lts ts.parents else none
  | .apply ts => if lts ts.parents = some head then some ts else none

/-- Why `NearestCommonAncestor` returns no tipset: a tipset does not load, or the index
`len(l)-1` is out of range. -/
inductive AncestorFailure
  | loadTipSet
  | panics
deriving DecidableEq

def nearestCommonAncestor (lts : TipSetKey → Option TipSet) (a b : TipSet) :
    Except AncestorFailure TipSet :=
  match reorgOps lts a b with
  | none => .error .loadTipSet
  | some (l, _) =>
      match l.getLast? with
      | none => .error .panics
      | some ts => (lts ts.parents).elim (.error .loadTipSet) .ok

namespace BlockTree

variable {t : BlockTree} {a ts b x c : TipSet} {l A B : List TipSet}

/-- `c` is the highest tipset of both chains. -/
structure DeepestCommon (A B : List TipSet) (c : TipSet) : Prop where
  left : c ∈ A
  right : c ∈ B
  height_le : ∀ x ∈ A, x ∈ B → x.height ≤ c.height

/-- The last tipset of a chain is its tip, and what is before it is the parent's chain. -/
theorem Walk.snoc_inv (h : Walk t a (l ++ [x])) :
    x = a ∧ (l ≠ [] → ∃ p, t.loadTipSet a.parents = some p ∧ Walk t p l) := by
  generalize hl : l ++ [x] = l' at h
  cases h with
  | genesis =>
    obtain ⟨rfl, rfl⟩ := append_singleton_inj.mp (hl.trans (nil_append _).symm)
    exact ⟨rfl, fun hne => absurd rfl hne⟩
  | child _ hp _ hw =>
    obtain ⟨rfl, rfl⟩ := append_singleton_inj.mp hl
    exact ⟨rfl, fun _ => ⟨_, hp, hw⟩⟩

/-- Between a tip and a tipset `c` of its chain, the reverts lead down to `c` and the applies
back up. -/
theorem Walk.replay (h : Walk t a (l ++ [c] ++ A.reverse)) : Walk t c (l ++ [c]) ∧
    (A.map .revert).foldlM (HeadChange.replay t.loadTipSet) a = some c ∧
      (A.reverse.map .apply).foldlM (HeadChange.replay t.loadTipSet) c = some a := by
  induction A generalizing a with
  | nil =>
    rw [reverse_nil, append_nil] at h
    obtain ⟨rfl, -⟩ := h.snoc_inv
    exact ⟨h, rfl, rfl⟩
  | cons x A ih =>
    rw [reverse_cons, ← append_assoc] at h
    obtain ⟨rfl, hparent⟩ := h.snoc_inv
    obtain ⟨p, hp, hw⟩ := hparent (by simp)
    obtain ⟨hc, hdown, hup⟩ := ih hw
    refine ⟨hc, ?_, ?_⟩
    · simp [HeadChange.replay, hp, hdown]
    · simp only [reverse_cons, map_append, foldlM_append, hup]
      simp [HeadChange.replay, hp]

section

variable (ha : Walk t a A) (hb : Walk t b B)
include ha hb

/-- `ReorgOps` stops on the deepest common ancestor. -/
theorem reorgOps_deepest :
    ∃ l c lc rc, reorgOps t.loadTipSet a b = some (lc, rc) ∧ A = l ++ [c] ++ lc.reverse ∧
      B = l ++ [c] ++ rc.reverse ∧ DeepestCommon A B c := by
  obtain ⟨stem, lc, rc, hops, hA, hB, hlc, -⟩ := reorgOps_fork ha hb
  have hstem : ∀ x ∈ A, x ∈ B → x ∈ stem := by
    intro x hxA hxB
    rw [hA] at hxA
    rcases mem_append.mp hxA with hx | hx
    · exact hx
    · exact absurd hxB (hlc x (mem_reverse.mp hx))
  -- the genesis tipset is on both chains
  obtain rfl | ⟨l, c, rfl⟩ := stem.eq_nil_or_concat'
  · exact absurd (hstem _ ha.genesis_mem hb.genesis_mem) not_mem_nil
  have hc : Walk t c (l ++ [c]) := (Walk.replay (hA ▸ ha)).1
  refine ⟨l, c, lc, rc, hops, hA, hB, by simp [hA], by simp [hB], ?_⟩
  exact fun x hxA hxB => hc.height_le (hstem x hxA hxB)

/-- `NearestCommonAncestor` finds the deepest common ancestor exactly from a tipset that is not on
the other chain. -/
theorem nearestCommonAncestor_deepest_iff :
    (∃ c, nearestCommonAncestor t.loadTipSet a b = .ok c ∧ DeepestCommon A B c) ↔ a ∉ B := by
  constructor
  · rintro ⟨c, hok, -⟩
    obtain ⟨stem, lc, rc, hops, hA, -, hlc, -⟩ := reorgOps_fork ha hb
    unfold nearestCommonAncestor at hok
    rw [hops] at hok
    cases lc with
    | nil => cases hok
    | cons x lc =>
      rw [reverse_cons, ← append_assoc] at hA
      obtain ⟨rfl, -⟩ := Walk.snoc_inv (hA ▸ ha)
      exact hlc x mem_cons_self
  intro hab
  obtain ⟨l, c, lc, rc, hops, hA, hB, hdeep⟩ := reorgOps_deepest ha hb
  refine ⟨c, ?_, hdeep⟩
  obtain rfl | ⟨lc, x, rfl⟩ := lc.eq_nil_or_concat'
  · -- nothing to revert: `a` would be the common ancestor
    subst hA
    obtain ⟨rfl, -⟩ := Walk.snoc_inv (by simpa using ha)
    exact absurd hdeep.right hab
  · have hx : Walk t x (l ++ [c] ++ [x]) := (Walk.replay (by simpa [hA] using ha)).1
    obtain ⟨p, hp, hw⟩ := hx.snoc_inv.2 (by simp)
    obtain ⟨rfl, -⟩ := hw.snoc_inv
    simp [nearestCommonAncestor, hops, hp]

end

end BlockTree

theorem nearestCommonAncestor_fork :
    ∃ c, nearestCommonAncestor forkLoad leftTs rightTs = .ok c ∧
      BlockTree.DeepestCommon [rootTs, leftTs] [rootTs, rightTs] c := by
  have hleft : forkTree.Walk leftTs ([rootTs] ++ [leftTs]) :=
    .child (p := rootTs) (show forkTree.Has leftTs from rfl) rfl (by decide) .genesis
  have hright : forkTree.Walk rightTs ([rootTs] ++ [rightTs]) :=
    .child (p := rootTs) (show forkTree.Has rightTs from rfl) rfl (by decide) .genesis
  exact (BlockTree.nearestCommonAncestor_deepest_iff hleft hright).mpr (by decide)

/-- When `a` is `b` or an ancestor of `b`, there is nothing to revert and the last revert is
read all the same. -/
theorem nearestCommonAncestor_panics :
    nearestCommonAncestor forkLoad leftTs leftTs = .error .panics ∧
      nearestCommonAncestor forkLoad rootTs leftTs = .error .panics := by
  decide

open BlockTree in
/-- `ReorgOps` gives the two paths down to the deepest common ancestor, and the steps of
`GetPath` lead from `a` to `b`. -/
theorem getPath_replay {t : BlockTree} {a b : TipSet} (ha : t.Has a) (hb : t.Has b) :
    ∃ path l c lc rc, Walk t a (l ++ [c] ++ lc.reverse) ∧ Walk t b (l ++ [c] ++ rc.reverse) ∧
      DeepestCommon (l ++ [c] ++ lc.reverse) (l ++ [c] ++ rc.reverse) c ∧
      reorgOps t.loadTipSet a b = some (lc, rc) ∧
      getPath t.loadTipSet a.key b.key = some path ∧
      path.foldlM (HeadChange.replay t.loadTipSet) a = some b := by
  obtain ⟨A, hA⟩ := ha.walk
  obtain ⟨B, hB⟩ := hb.walk
  obtain ⟨l, c, lc, rc, hops, rfl, rfl, hdeep⟩ := reorgOps_deepest hA hB
  refine ⟨lc.map .revert ++ rc.reverse.map .apply, l, c, lc, rc, hA, hB, hdeep, hops, ?_, ?_⟩
  · unfold Has at ha hb
    simp only [getPath, ha, hb, hops, bind_eq_bind, bind_some]
    rfl
  · rw [foldlM_append, hA.replay.2.1]
    exact hB.replay.2.2

theorem getPath_replay_fork :
    ∃ path, getPath forkLoad [1] [2] = some path ∧
      path.foldlM (HeadChange.replay forkLoad) leftTs = some rightTs := by
  obtain ⟨path, _, _, _, _, _, _, _, _, h⟩ :=
    getPath_replay (t := forkTree) (a := leftTs) (b := rightTs) rfl rfl
  exact ⟨path, h⟩

end OpenDsn.Chain
