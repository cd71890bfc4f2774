import OpenDsn.Lib.Ring
import OpenDsn.Lib.Run
import OpenDsn.Lib.Table

/-!
# The cache of recent tipsets

`chain/events/tscache.go`: the tipsets of the last heights in a ring of slots, with empty slots
for null rounds. `start` is the slot of the head. A lookup below the head reads the slot that
lies as far before `start` as the height lies below the head, and searches on from there.

The chain that the cache follows is the list of its tipsets, the head first. The storage answers
from it.

* `calls_succeed`: a cache with slots takes every call that follows the chain;
* `cache_follows`: its slots, keys and head are those of the chain;
* `cache_answers_of_covered`: a lookup gives what the storage gives if it needs no slot, or if it
  is made from the head of the cache, above the tail, and for the last tipset at or below a height
  that the cache has one for;
* `cache_answers_wrong`: at the tail, below all cached tipsets and from an older tipset the lookup
  ends in the wrong slot.
-/

namespace OpenDsn.Events

open Lib List Option

/-- A tipset is known by its key. -/
structure TipSet where
  key : Nat
  parents : Nat
  height : Int
deriving DecidableEq

inductive CacheError
  /-- The height is above the tipset that the lookup starts from. -/
  | future
  /-- The storage has no such tipset. -/
  | notFound
  /-- `add` of a tipset that is not above the head. -/
  | lowHeight
  /-- `add` of a tipset that is no child of the head. -/
  | notChild
  | revertMismatch
  /-- The cache has no slots. -/
  | divideByZero
  /-- The slot of the head is empty. -/
  | nilTipSet
  /-- All slots are empty and the search does not end. -/
  | endless
deriving DecidableEq

structure TipSetCache where
  byKey : Table Nat TipSet
  byHeight : List (Option TipSet)
  start : Nat
  len : Nat

def newTSCache (cap : Nat) : TipSetCache := ⟨∅, List.replicate cap none, 0, 0⟩

def normalModulo (n m : Int) : Int := (n.tmod m + m).tmod m

/-- `ChainGetTipSetByHeight` (`prev`) and `ChainGetTipSetAfterHeight` of the storage. An empty key
stands for the head. -/
abbrev Storage := Bool → Int → Option Nat → Except CacheError (Option TipSet)

namespace TipSetCache

variable (s : TipSetCache)

/-- `byHeight[start]`. -/
def head : Option TipSet := (s.byHeight[s.start]?).join

/-- `byHeight[normalModulo(i, len(byHeight))]`. -/
def slot (i : Int) : Option TipSet :=
  (s.byHeight[(normalModulo i s.byHeight.length).toNat]?).join

/-- The loop of `get`, for a number of rounds. -/
def search (s : TipSetCache) (direction : Int) : Nat → Int → Option TipSet
  | 0, _ => none
  | rounds + 1, i =>
      match s.slot i with
      | some ts => some ts
      | none => s.search direction rounds (i + direction)

/-- `get` from the tipset that the key names. Downwards the loop has no bound but a tipset, and
all slots are read after one time around. -/
def getFrom (storage : Storage) (height : Int) (prev : Bool) (head : TipSet) :
    Except CacheError (Option TipSet) :=
  let tailH := head.height - s.len
  if head.height = height then .ok (some head)
  else if head.height < height then .error .future
  else if height < tailH then storage prev height (some head.key)
  else
    let i : Int := s.start - (head.height - height)
    if prev then
      match s.search (-1) s.byHeight.length i with
      | none => .error .endless
      | some ts => .ok (some ts)
    else .ok (s.search 1 s.len i)

def get (storage : Storage) (height : Int) (tsk : Option Nat) (prev : Bool) :
    Except CacheError (Option TipSet) :=
  if s.len = 0 then storage prev height tsk
  else
    match tsk with
    | none =>
        match s.head with
        | none => .error .nilTipSet
        | some head => s.getFrom storage height prev head
    | some key =>
        match s.byKey.get? key with
        | none => storage prev height tsk
        | some head => s.getFrom storage height prev head

def deleteKey (byKey : Table Nat TipSet) : Option TipSet → Table Nat TipSet
  | none => byKey
  | some was => byKey.erase was.key

def setKey (byKey : Table Nat TipSet) : Option TipSet → Table Nat TipSet
  | none => byKey
  | some ts => byKey.insert ts.key ts

/-- The next slot is taken, by a tipset or a null round. -/
def push (ts : Option TipSet) : TipSetCache :=
  let start := (normalModulo (s.start + 1) s.byHeight.length).toNat
  let was := (s.byHeight[start]?).join
  { byKey := setKey (deleteKey s.byKey was) ts
    byHeight := s.byHeight.set start ts
    start
    len := if s.len < s.byHeight.length then s.len + 1 else s.len }

/-- The null rounds before a tipset. -/
def pushNulls (s : TipSetCache) : Nat → TipSetCache
  | 0 => s
  | n + 1 => (s.push none).pushNulls n

def add (ts : TipSet) : Except CacheError TipSetCache :=
  if s.byHeight.length = 0 then .error .divideByZero
  else if s.len = 0 then .ok (s.push (some ts))
  else
    match s.head with
    | none => .error .nilTipSet
    | some best =>
        if best.height ≥ ts.height then .error .lowHeight
        else if best.key ≠ ts.parents then .error .notChild
        else .ok ((s.pushNulls (ts.height - (best.height + 1)).toNat).push (some ts))

/-- The slot of the head is given back. -/
def pop : TipSetCache :=
  { byKey := deleteKey s.byKey s.head
    byHeight := s.byHeight.set s.start none
    start := (normalModulo (s.start - 1) s.byHeight.length).toNat
    len := s.len - 1 }

/-- `revertUnlocked`; every call gives back a slot, so there are `len + 1` at most. -/
def revertUnlocked : Nat → TipSetCache → Option TipSet → Except CacheError TipSetCache
  | 0, s, _ => .ok s
  | calls + 1, s, ts =>
      if s.len = 0 then .ok s
      else if s.head ≠ ts then .error .revertMismatch
      else
        match revertUnlocked calls s.pop none with
        | .ok s' => .ok s'
        | .error _ => .ok s.pop

def revert (ts : TipSet) : Except CacheError TipSetCache :=
  revertUnlocked (s.len + 1) s (some ts)

end TipSetCache

/-! ## The storage -/

/-- Heights and keys of a chain, the head first. -/
def IsChain (chain : List TipSet) : Prop :=
  chain.Pairwise fun a b => b.height < a.height ∧ a.key ≠ b.key

/-- The last tipset at or below a height, or the first at or above it. -/
def onChain (prev : Bool) (height : Int) : List TipSet → Except CacheError (Option TipSet)
  | [] => .error .notFound
  | head :: chain =>
      if head.height < height then .error .future
      else
        match (if prev then (head :: chain).find? fun ts => decide (ts.height ≤ height)
          else ((head :: chain).filter fun ts => decide (height ≤ ts.height)).getLast?) with
        | none => .error .notFound
        | some ts => .ok (some ts)

/-- The storage, on the chain that ends at the key. -/
def storageGet (chain : List TipSet) : Storage := fun prev height tsk =>
  match tsk with
  | none => onChain prev height chain
  | some key => onChain prev height (chain.dropWhile fun ts => decide (ts.key ≠ key))

/-! ## Following the chain -/

structure Follower where
  cache : TipSetCache
  chain : List TipSet

inductive ChainCall
  | add (ts : TipSet)
  | revert (ts : TipSet)

/-- A tipset that comes after the head of a chain. -/
def Extends (chain : List TipSet) (ts : TipSet) : Prop :=
  (∀ head ∈ chain.head?, head.key = ts.parents ∧ head.height < ts.height) ∧
    ∀ old ∈ chain, old.key ≠ ts.key

instance (chain : List TipSet) (ts : TipSet) : Decidable (Extends chain ts) :=
  inferInstanceAs (Decidable ((∀ head ∈ chain.head?, _) ∧ _))

namespace Follower

/-- The chain after a call that follows it. -/
def next (chain : List TipSet) : ChainCall → Option (List TipSet)
  | .add ts => if Extends chain ts then some (ts :: chain) else none
  | .revert ts => if chain.head? = some ts then some chain.tail else none

def call (cache : TipSetCache) : ChainCall → Except CacheError TipSetCache
  | .add ts => cache.add ts
  | .revert ts => cache.revert ts

def step (s : Follower) (c : ChainCall) : Option Follower :=
  match next s.chain c with
  | none => none
  | some chain =>
      match call s.cache c with
      | .error _ => none
      | .ok cache => some ⟨cache, chain⟩

end Follower

/-- The tipset that a lookup starts from. -/
def TipSetCache.resolve (s : TipSetCache) : Option Nat → Option TipSet
  | none => s.head
  | some key => s.byKey.get? key

/-- A lookup that is answered without a slot, or from the head of the cache and within the slots
that are in use. -/
def TipSetCache.Covered (s : TipSetCache) (height : Int) (tsk : Option Nat) (prev : Bool) : Prop :=
  s.len = 0 ∨ ∀ head, s.resolve tsk = some head →
    head.height ≤ height ∨ height < head.height - s.len ∨
      (s.head = some head ∧ head.height - s.len < height ∧
        (prev = true → ∃ key ts, s.byKey.get? key = some ts ∧ ts.height ≤ height))

namespace CacheLemmas

open TipSetCache

variable {s : TipSetCache} {w : List (Option TipSet)} {x : Option TipSet} {chain : List TipSet}
  {head ts : TipSet} {height : Int} {d : Nat} {chain' : List TipSet} {byKey : Table Nat TipSet}
  {m : Nat}

/-! ## The slots -/

theorem normalModulo_eq (h : 0 < m) (n : Int) : normalModulo n m = n % m := by
  have hpos : (0 : Int) < m := Int.natCast_pos.mpr h
  have hlt : -(m : Int) < n.tmod m := Int.lt_tmod_of_pos n hpos
  unfold normalModulo
  rw [Int.tmod_eq_emod_of_nonneg (by omega), Int.add_emod_right, Int.tmod_def,
    Int.sub_mul_emod_self_left]

theorem toNat_normalModulo (h : 0 < m) (i : Int) :
    (normalModulo i m).toNat = Ring.index m i := by
  rw [normalModulo_eq h]
  rfl

/-- The map has the tipsets of a list by their keys. -/
def Keyed (byKey : Table Nat TipSet) (l : List (Option TipSet)) : Prop :=
  ∀ k ts, byKey.get? k = some ts ↔ some ts ∈ l ∧ ts.key = k

theorem keyed_deleteKey {l l' : List (Option TipSet)}
    (h : Keyed byKey l) (hmem : ∀ ts, some ts ∈ l ↔ some ts ∈ l' ∨ x = some ts)
    (hne : ∀ ts, some ts ∈ l' → ∀ was, x = some was → ts.key ≠ was.key) :
    Keyed (TipSetCache.deleteKey byKey x) l' := by
  intro k ts
  cases x with
  | none =>
    have hl : some ts ∈ l ↔ some ts ∈ l' := (hmem ts).trans (or_iff_left (by rintro ⟨⟩))
    rw [← hl]
    exact h k ts
  | some was =>
    show (byKey.erase was.key).get? k = some ts ↔ _
    rw [Table.get?_erase_eq_some, h k ts, hmem ts]
    constructor
    · rintro ⟨hk, hts | hwas, hkey⟩
      · exact ⟨hts, hkey⟩
      · cases hwas
        exact absurd hkey.symm hk
    · rintro ⟨hts, hkey⟩
      exact ⟨fun hk => hne ts hts was rfl (hkey.trans hk), .inl hts, hkey⟩

theorem keyed_setKey {l : List (Option TipSet)} (h : Keyed byKey l)
    (hne : ∀ ts, x = some ts → ∀ old, some old ∈ l → old.key ≠ ts.key) :
    Keyed (TipSetCache.setKey byKey x) (x :: l) := by
  intro k ts
  rw [mem_cons]
  cases x with
  | none =>
    rw [or_iff_right (by rintro ⟨⟩)]
    exact h k ts
  | some new =>
    show (byKey.insert new.key new).get? k = some ts ↔ _
    rw [Table.get?_insert]
    split
    · next hk =>
      constructor
      · intro hget
        cases hget
        exact ⟨.inl rfl, hk.symm⟩
      · rintro ⟨hnew | hold, hkey⟩
        · rw [some.inj hnew]
        · exact absurd (hkey.trans hk) (hne new rfl ts hold)
    · next hk =>
      rw [h k ts]
      constructor
      · rintro ⟨hold, hkey⟩
        exact ⟨.inr hold, hkey⟩
      · rintro ⟨hnew | hold, hkey⟩
        · rw [some.inj hnew] at hkey
          exact absurd hkey.symm hk
        · exact ⟨hold, hkey⟩

variable (s w) in
/-- The cache holds the entries `w`, the one of its head first. -/
structure Rep : Prop where
  holds : Ring.Holds s.byHeight s.start w
  start_lt : 0 < s.byHeight.length → s.start < s.byHeight.length
  len_eq : s.len = w.length
  keyed : Keyed s.byKey w
  distinct : w.Pairwise fun a b => ∀ ts, a = some ts → ∀ old, b = some old → ts.key ≠ old.key

theorem Rep.pos (h : Rep s (x :: w)) : 0 < s.byHeight.length :=
  lt_of_lt_of_le (Nat.succ_pos _) h.holds.length_le

theorem Rep.len_le (h : Rep s w) : s.len ≤ s.byHeight.length := h.len_eq ▸ h.holds.length_le

theorem slot_eq (h : 0 < s.byHeight.length) (i : Int) : s.slot i = Ring.slot s.byHeight i := by
  unfold slot Ring.slot
  rw [toNat_normalModulo h]

theorem Rep.slot_sub (h : Rep s w) {j : Nat} (hj : j < s.byHeight.length) :
    s.slot (s.start - j) = (w[j]?).join := by
  rw [slot_eq (Nat.lt_of_le_of_lt (Nat.zero_le j) hj)]
  exact h.holds.slot_eq j hj

theorem Rep.head_eq (h : Rep s (x :: w)) : s.head = x := by
  have hslot := h.holds.slot_eq 0 h.pos
  unfold Ring.slot at hslot
  rw [Int.natCast_zero, sub_zero, Ring.index_natCast (h.start_lt h.pos)] at hslot
  exact hslot

theorem Rep.push (h : Rep s w) (hpos : 0 < s.byHeight.length)
    (hne : ∀ ts, x = some ts → ∀ old, some old ∈ w → old.key ≠ ts.key) :
    Rep (s.push x) ((x :: w).take s.byHeight.length) := by
  have htake : (x :: w).take s.byHeight.length = x :: w.take (s.byHeight.length - 1) := by
    rw [← Nat.sub_add_cancel hpos, take_succ_cons, Nat.add_sub_cancel]
  have hsplit := take_append_drop (s.byHeight.length - 1) w
  have hwas : ((s.byHeight[Ring.index s.byHeight.length (s.start + 1)]?).join) =
      (w[s.byHeight.length - 1]?).join := h.holds.slot_next hpos
  have hlen : w.length ≤ s.byHeight.length := h.holds.length_le
  -- at most one entry falls out
  have hdrop : w.drop (s.byHeight.length - 1) = (w[s.byHeight.length - 1]?).toList := by
    rw [drop_eq_getElem?_toList_append, drop_eq_nil_of_le (by omega), append_nil]
  have hmem : ∀ ts, some ts ∈ w ↔ some ts ∈ w.take (s.byHeight.length - 1) ∨
      (w[s.byHeight.length - 1]?).join = some ts := by
    intro ts
    conv_lhs => rw [← hsplit]
    rw [mem_append, hdrop, mem_toList, join_eq_some_iff]
  have hdistinct := h.distinct
  rw [← hsplit, pairwise_append, hdrop] at hdistinct
  unfold TipSetCache.push
  dsimp only
  rw [toNat_normalModulo hpos]
  refine ⟨h.holds.push hpos, fun _ => ?_, ?_, ?_, ?_⟩
  · rw [length_set]
    exact Ring.index_lt hpos (s.start + 1)
  · dsimp only
    rw [h.len_eq, length_take, length_cons]
    split
    · next hlt => exact (min_eq_right hlt).symm
    · next hge => rw [min_eq_left (by omega)]; omega
  · rw [hwas, htake]
    refine keyed_setKey (keyed_deleteKey h.keyed hmem fun ts hts was hjoin => ?_)
      fun ts hts old hold => hne ts hts old (mem_of_mem_take hold)
    refine hdistinct.2.2 (some ts) hts (some was) ?_ ts rfl was rfl
    rw [mem_toList]
    exact join_eq_some_iff.mp hjoin
  · rw [htake, pairwise_cons]
    refine ⟨fun y hy ts hts old hold => ?_, hdistinct.1⟩
    rw [hold] at hy
    exact (hne ts hts old (mem_of_mem_take hy)).symm

theorem Rep.pop (h : Rep s (x :: w)) : Rep s.pop w := by
  have hpop := h.holds.pop
  rw [Ring.index_natCast (h.start_lt h.pos)] at hpop
  unfold TipSetCache.pop
  rw [toNat_normalModulo h.pos]
  refine ⟨hpop, fun _ => ?_, ?_, ?_, (pairwise_cons.mp h.distinct).2⟩
  · rw [length_set]
    exact Ring.index_lt h.pos (s.start - 1)
  · rw [h.len_eq]
    rfl
  · rw [h.head_eq]
    refine keyed_deleteKey h.keyed (fun ts => ?_) fun ts hts was hwas => ?_
    · rw [mem_cons, or_comm, eq_comm]
    · exact ((pairwise_cons.mp h.distinct).1 (some ts) hts was hwas ts rfl).symm

theorem take_append_take {α : Type} (n : Nat) (l l' : List α) :
    (l ++ l'.take n).take n = (l ++ l').take n := by
  rw [take_append, take_append, take_take, min_eq_left (Nat.sub_le _ _)]

theorem take_cons_take {α : Type} (n : Nat) (a : α) (l : List α) :
    (a :: l.take n).take n = (a :: l).take n := take_append_take n [a] l

theorem length_push : (s.push x).byHeight.length = s.byHeight.length :=
  length_set

theorem Rep.pushNulls (h : Rep s w) (hpos : 0 < s.byHeight.length) (n : Nat) :
    Rep (s.pushNulls n) ((List.replicate n none ++ w).take s.byHeight.length) ∧
      (s.pushNulls n).byHeight.length = s.byHeight.length := by
  induction n generalizing s w with
  | zero =>
    rw [replicate_zero, nil_append, take_of_length_le h.holds.length_le]
    exact ⟨h, rfl⟩
  | succ n ih =>
    have hpush := h.push hpos (x := none) (by rintro ts ⟨⟩)
    have hrest := ih hpush (by rwa [length_push])
    rw [length_push, take_append_take] at hrest
    have hlist : List.replicate n none ++ none :: w = List.replicate (n + 1) none ++ w := by
      rw [replicate_succ', append_assoc]
      rfl
    rw [hlist] at hrest
    exact hrest

/-! ## The chain -/

/-- The tipset of a chain at a height, or none for a null round. -/
def tipSetAt (chain : List TipSet) (height : Int) : Option TipSet :=
  chain.find? fun ts => decide (ts.height = height)

theorem height_lt_of_mem_tail (h : IsChain (head :: chain)) (hts : ts ∈ chain) :
    ts.height < head.height := ((pairwise_cons.mp h).1 ts hts).1

theorem height_le_of_mem (h : IsChain (head :: chain)) (hts : ts ∈ head :: chain) :
    ts.height ≤ head.height := by
  rcases mem_cons.mp hts with rfl | htail
  · exact le_refl _
  · exact le_of_lt (height_lt_of_mem_tail h htail)

theorem tipSetAt_eq_none : tipSetAt chain height = none ↔ ∀ ts ∈ chain, ts.height ≠ height := by
  unfold tipSetAt
  rw [find?_eq_none]
  exact forall₂_congr fun ts _ => not_congr decide_eq_true_iff

theorem mem_of_tipSetAt (h : tipSetAt chain height = some ts) :
    ts ∈ chain ∧ ts.height = height := by
  have hheight := find?_some h
  exact ⟨mem_of_find?_eq_some h, of_decide_eq_true hheight⟩

theorem tipSetAt_of_mem (h : IsChain chain) (hts : ts ∈ chain) :
    tipSetAt chain ts.height = some ts := by
  cases hat : tipSetAt chain ts.height with
  | none => exact absurd rfl (tipSetAt_eq_none.mp hat ts hts)
  | some other =>
    obtain ⟨hmem, hheight⟩ := mem_of_tipSetAt hat
    have hnodup : (chain.map TipSet.height).Nodup :=
      pairwise_map.mpr (h.imp fun hab => ne_of_gt hab.1)
    rw [inj_on_of_nodup_map hnodup hmem hts hheight]

theorem tipSetAt_cons_of_ne (h : head.height ≠ height) :
    tipSetAt (head :: chain) height = tipSetAt chain height :=
  find?_cons_of_neg (by simpa using h)

/-- The entries are the tipsets of the chain at the heights from its head downwards. -/
def Windows (chain : List TipSet) (w : List (Option TipSet)) : Prop :=
  ∀ (j : Nat) (x : Option TipSet), w[j]? = some x →
    ∃ head, chain.head? = some head ∧ x = tipSetAt chain (head.height - j)

theorem Windows.mem (h : Windows chain w) (hts : some ts ∈ w) : ts ∈ chain := by
  obtain ⟨j, hj⟩ := mem_iff_getElem?.mp hts
  obtain ⟨head, -, hat⟩ := h j (some ts) hj
  exact (mem_of_tipSetAt hat.symm).1

theorem Windows.eq_head (hchain : IsChain (head :: chain))
    (h : Windows (head :: chain) (x :: w)) : x = some head := by
  obtain ⟨_, heq, hx⟩ := h 0 x rfl
  cases heq
  rw [hx, Int.natCast_zero, sub_zero]
  exact tipSetAt_of_mem hchain mem_cons_self

theorem Windows.take (h : Windows chain w) (cap : Nat) : Windows chain (w.take cap) := by
  intro j x hx
  rw [getElem?_take] at hx
  split at hx
  · exact h j x hx
  · cases hx

/-- The head is followed by a tipset, after some null rounds. -/
theorem windows_add (h : Windows (head :: chain) w) (hchain : IsChain (ts :: head :: chain)) :
    Windows (ts :: head :: chain)
      (some ts :: (List.replicate (ts.height - (head.height + 1)).toNat none ++ w)) := by
  have hlt : head.height < ts.height := height_lt_of_mem_tail hchain mem_cons_self
  generalize hn : (ts.height - (head.height + 1)).toNat = n
  intro j x hx
  refine ⟨ts, rfl, ?_⟩
  cases j with
  | zero =>
    cases hx
    rw [Int.natCast_zero, sub_zero]
    exact (tipSetAt_of_mem hchain mem_cons_self).symm
  | succ j =>
    rw [getElem?_cons_succ, getElem?_append, length_replicate] at hx
    have hheight : ts.height ≠ ts.height - ((j + 1 : Nat) : Int) := by omega
    rw [tipSetAt_cons_of_ne hheight]
    split at hx
    · next hnull =>
      -- a height between the two tipsets
      rw [getElem?_replicate, if_pos hnull] at hx
      cases hx
      symm
      rw [tipSetAt_eq_none]
      intro old hold
      have hle := height_le_of_mem (pairwise_cons.mp hchain).2 hold
      omega
    · next hold =>
      obtain ⟨_, heq, hx⟩ := h (j - n) x hx
      cases heq
      rw [hx]
      congr 1
      omega

theorem windows_first (hchain : IsChain (ts :: chain)) : Windows (ts :: chain) [some ts] := by
  intro j x hx
  rw [getElem?_singleton] at hx
  split at hx
  · next hj =>
    cases hx
    refine ⟨ts, rfl, ?_⟩
    rw [hj, Int.natCast_zero, sub_zero]
    exact (tipSetAt_of_mem hchain mem_cons_self).symm
  · cases hx

/-- The entries from a height on at which or below which the chain ends; the null rounds above
its head are left out. -/
theorem windows_dropWhile {b : Int} (hchain : IsChain chain) (hb : ∀ ts ∈ chain, ts.height ≤ b)
    (h : ∀ (j : Nat) (y : Option TipSet), w[j]? = some y → y = tipSetAt chain (b - j)) :
    Windows chain (w.dropWhile Option.isNone) := by
  induction w generalizing b with
  | nil =>
    intro j x hx
    cases hx
  | cons y w ih =>
    have hy : y = tipSetAt chain b := by
      rw [h 0 y rfl, Int.natCast_zero, sub_zero]
    cases y with
    | none =>
      refine ih (b := b - 1) (fun ts hts => ?_) fun j y hy => ?_
      · have hne := tipSetAt_eq_none.mp hy.symm ts hts
        have hle := hb ts hts
        omega
      · rw [h (j + 1) y hy]
        congr 1
        omega
    | some first =>
      obtain ⟨hmem, hheight⟩ := mem_of_tipSetAt hy.symm
      have hhead : chain.head? = some first := by
        cases chain with
        | nil => cases hmem
        | cons c chain =>
          rcases mem_cons.mp hmem with rfl | htail
          · rfl
          · have hlt := height_lt_of_mem_tail hchain htail
            have hle := hb c mem_cons_self
            omega
      intro j x hx
      exact ⟨first, hhead, by rw [h j x hx, hheight]⟩

/-! ## The calls -/

variable (s chain) in
/-- The cache holds the last heights of the chain. -/
structure Tracks : Prop where
  isChain : IsChain chain
  window : ∃ w, Rep s w ∧ Windows chain w

/-- The head of a cache that is not empty is the head of the chain. -/
theorem Tracks.head_eq (h : Tracks s chain) (hlen : s.len ≠ 0) :
    ∃ first rest, chain = first :: rest ∧ s.head = some first := by
  obtain ⟨w, hrep, hwin⟩ := h.window
  cases w with
  | nil => exact absurd hrep.len_eq hlen
  | cons x w =>
    obtain ⟨first, hfirst, -⟩ := hwin 0 x rfl
    cases chain with
    | nil => cases hfirst
    | cons c rest => exact ⟨c, rest, rfl, hrep.head_eq.trans (hwin.eq_head h.isChain)⟩

theorem isChain_cons (h : IsChain chain) (hext : Extends chain ts) : IsChain (ts :: chain) := by
  refine pairwise_cons.mpr ⟨fun old hold => ⟨?_, (hext.2 old hold).symm⟩, h⟩
  cases chain with
  | nil => cases hold
  | cons head chain =>
    have hlt := (hext.1 head rfl).2
    rcases mem_cons.mp hold with rfl | hold
    · exact hlt
    · exact lt_trans (height_lt_of_mem_tail h hold) hlt

theorem tracks_add (h : Tracks s chain) (hext : Extends chain ts) (hpos : 0 < s.byHeight.length) :
    ∃ s', s.add ts = .ok s' ∧ Tracks s' (ts :: chain) ∧
      s'.byHeight.length = s.byHeight.length := by
  obtain ⟨w, hrep, hwin⟩ := h.window
  have hchain := isChain_cons h.isChain hext
  have hfresh : ∀ l : List (Option TipSet), (∀ old, some old ∈ l → some old ∈ w) →
      ∀ new, some ts = some new → ∀ old, some old ∈ l → old.key ≠ new.key := by
    rintro l hl _ ⟨rfl⟩ old hold
    exact hext.2 old (hwin.mem (hl old hold))
  unfold add
  rw [if_neg (ne_of_gt hpos)]
  split
  · next hlen =>
    cases length_eq_zero_iff.mp (hrep.len_eq.symm.trans hlen)
    have hpush := hrep.push hpos (hfresh [] fun _ hold => hold)
    exact ⟨_, rfl, ⟨hchain, _, hpush, (windows_first hchain).take _⟩, length_push⟩
  · next hlen =>
    obtain ⟨head, chain, rfl, hhead⟩ := h.head_eq hlen
    obtain ⟨hkey, hlt⟩ := hext.1 head rfl
    rw [hhead]
    dsimp only
    rw [if_neg (not_le.mpr hlt), if_neg (not_not.mpr hkey)]
    obtain ⟨hnulls, hlen⟩ := hrep.pushNulls hpos (ts.height - (head.height + 1)).toNat
    have hpush := hnulls.push (hlen ▸ hpos) (hfresh _ fun old hold => ?_)
    · rw [hlen, take_cons_take] at hpush
      exact ⟨_, rfl, ⟨hchain, _, hpush, (windows_add hwin hchain).take _⟩, length_push.trans hlen⟩
    · rcases mem_append.mp (mem_of_mem_take hold) with hnull | hold
      · cases (mem_replicate.mp hnull).2
      · exact hold

/-- The null rounds at the head are given back. -/
theorem revertUnlocked_none (h : Rep s w) {calls : Nat} (hcalls : w.length ≤ calls) :
    ∃ s', (match TipSetCache.revertUnlocked calls s none with
        | .ok s' => .ok s'
        | .error _ => .ok s) = (.ok s' : Except CacheError TipSetCache) ∧
      Rep s' (w.dropWhile Option.isNone) ∧ s'.byHeight.length = s.byHeight.length := by
  induction calls generalizing s w with
  | zero =>
    cases length_eq_zero_iff.mp (Nat.le_zero.mp hcalls)
    exact ⟨s, rfl, h, rfl⟩
  | succ calls ih =>
    cases w with
    | nil =>
      have hlen : s.len = 0 := h.len_eq
      unfold revertUnlocked
      rw [if_pos hlen]
      exact ⟨s, rfl, h, rfl⟩
    | cons x w =>
      have hlen : s.len ≠ 0 := by
        rw [h.len_eq]
        exact Nat.succ_ne_zero _
      unfold revertUnlocked
      rw [if_neg hlen, h.head_eq]
      cases x with
      | some first =>
        exact ⟨s, rfl, h, rfl⟩
      | none =>
        obtain ⟨s', hs', hrep, hlen⟩ := ih h.pop (Nat.le_of_succ_le_succ hcalls)
        rw [hs']
        exact ⟨s', rfl, hrep, hlen.trans length_set⟩

theorem tracks_revert (h : Tracks s (ts :: chain)) :
    ∃ s', s.revert ts = .ok s' ∧ Tracks s' chain ∧ s'.byHeight.length = s.byHeight.length := by
  obtain ⟨w, hrep, hwin⟩ := h.window
  have hchain : IsChain chain := (pairwise_cons.mp h.isChain).2
  unfold revert revertUnlocked
  cases w with
  | nil =>
    have hlen : s.len = 0 := hrep.len_eq
    rw [if_pos hlen]
    refine ⟨s, rfl, ⟨hchain, [], hrep, ?_⟩, rfl⟩
    intro j x hx
    cases hx
  | cons x w =>
    have hx := hwin.eq_head h.isChain
    rw [if_neg (by rw [hrep.len_eq]; exact Nat.succ_ne_zero _), hrep.head_eq,
      if_neg (not_not.mpr hx)]
    have hcalls : w.length ≤ s.len := hrep.len_eq ▸ Nat.le_succ w.length
    obtain ⟨s', hs', hrep', hlen⟩ := revertUnlocked_none hrep.pop hcalls
    rw [hs']
    refine ⟨s', rfl, ⟨hchain, _, hrep', ?_⟩, hlen.trans length_set⟩
    -- The head is taken from the chain, with the null rounds before it.
    refine windows_dropWhile (b := ts.height - 1) hchain (fun old hold => ?_) fun j y hy => ?_
    · have := height_lt_of_mem_tail h.isChain hold
      omega
    · obtain ⟨_, heq, hat⟩ := hwin (j + 1) y hy
      cases heq
      rw [hat, tipSetAt_cons_of_ne (by omega)]
      congr 1
      omega

/-! ## The lookups -/

/-- The loop ends at the first slot that is not empty. `f` lists the slots on its way. -/
theorem search_finds {direction i : Int} {f : Nat → Option TipSet} {n rounds : Nat}
    (hslot : ∀ k : Nat, k ≤ n → s.slot (i + direction * k) = f k) (hn : n < rounds)
    (hsome : (f n).isSome) : ∃ k ts, k ≤ n ∧ s.search direction rounds i = some ts ∧
      f k = some ts ∧ ∀ m < k, f m = none := by
  induction rounds generalizing i n f with
  | zero => cases hn
  | succ rounds ih =>
    have hfirst := hslot 0 (Nat.zero_le n)
    rw [Int.natCast_zero, Int.mul_zero, Int.add_zero] at hfirst
    unfold search
    rw [hfirst]
    cases hf : f 0 with
    | some ts => exact ⟨0, ts, Nat.zero_le n, rfl, hf, fun m hm => nomatch hm⟩
    | none =>
      cases n with
      | zero =>
        rw [hf] at hsome
        cases hsome
      | succ n =>
        have hrest : ∀ k : Nat, k ≤ n → s.slot (i + direction + direction * k) = f (k + 1) := by
          intro k hk
          rw [← hslot (k + 1) (Nat.succ_le_succ hk), Int.natCast_add, Int.natCast_one, Int.mul_add,
            Int.mul_one, Int.add_comm (direction * k), Int.add_assoc]
        obtain ⟨k, ts, hk, hsearch, hts, hnone⟩ := ih hrest (Nat.lt_of_succ_lt_succ hn) hsome
        refine ⟨k + 1, ts, Nat.succ_le_succ hk, hsearch, hts, fun m hm => ?_⟩
        cases m with
        | zero => exact hf
        | succ m => exact hnone m (Nat.lt_of_succ_lt_succ hm)

/-- The last tipset at or below a height. -/
theorem find?_eq_some_of_last (h : IsChain chain) (hts : ts ∈ chain) (hle : ts.height ≤ height)
    (hlast : ∀ old ∈ chain, old.height ≤ height → old.height ≤ ts.height) :
    chain.find? (fun ts => decide (ts.height ≤ height)) = some ts := by
  induction chain with
  | nil => cases hts
  | cons c chain ih =>
    by_cases hc : c.height ≤ height
    · rw [find?_cons_of_pos (by simpa using hc)]
      rcases mem_cons.mp hts with rfl | htail
      · rfl
      · have hlt := height_lt_of_mem_tail h htail
        have hge := hlast c mem_cons_self hc
        omega
    · rw [find?_cons_of_neg (by simpa using hc)]
      rcases mem_cons.mp hts with rfl | htail
      · exact absurd hle hc
      · exact ih (pairwise_cons.mp h).2 htail
          fun old hold => hlast old (mem_cons_of_mem c hold)

/-- The first tipset at or above a height. -/
theorem getLast?_filter_of_first (h : IsChain chain) (hts : ts ∈ chain) (hle : height ≤ ts.height)
    (hfirst : ∀ old ∈ chain, height ≤ old.height → ts.height ≤ old.height) :
    (chain.filter fun ts => decide (height ≤ ts.height)).getLast? = some ts := by
  induction chain with
  | nil => cases hts
  | cons c chain ih =>
    rcases mem_cons.mp hts with rfl | htail
    · -- all that follow are below the height
      have hnil : chain.filter (fun ts => decide (height ≤ ts.height)) = [] := by
        rw [filter_eq_nil_iff]
        intro old hold hge
        have hlt := height_lt_of_mem_tail h hold
        have := hfirst old (mem_cons_of_mem _ hold) (of_decide_eq_true hge)
        omega
      rw [filter_cons_of_pos (by simpa using hle), hnil]
      rfl
    · have hlt := height_lt_of_mem_tail h htail
      have hrest := ih (pairwise_cons.mp h).2 htail
        fun old hold => hfirst old (mem_cons_of_mem c hold)
      rw [filter_cons_of_pos (by simp; omega), getLast?_cons, hrest]
      rfl

theorem onChain_true (h : IsChain (head :: chain)) (hheight : height ≤ head.height)
    (hts : ts ∈ head :: chain) (hle : ts.height ≤ height)
    (hlast : ∀ old ∈ head :: chain, old.height ≤ height → old.height ≤ ts.height) :
    onChain true height (head :: chain) = .ok (some ts) := by
  unfold onChain
  dsimp only
  rw [if_neg (not_lt.mpr hheight), if_pos rfl, find?_eq_some_of_last h hts hle hlast]

theorem onChain_false (h : IsChain (head :: chain)) (hts : ts ∈ head :: chain)
    (hle : height ≤ ts.height)
    (hfirst : ∀ old ∈ head :: chain, height ≤ old.height → ts.height ≤ old.height) :
    onChain false height (head :: chain) = .ok (some ts) := by
  have hheight : height ≤ head.height := hle.trans (height_le_of_mem h hts)
  unfold onChain
  dsimp only
  rw [if_neg (not_lt.mpr hheight), if_neg Bool.false_ne_true,
    getLast?_filter_of_first h hts hle hfirst]

theorem onChain_head (h : IsChain (head :: chain)) (prev : Bool) :
    onChain prev head.height (head :: chain) = .ok (some head) := by
  cases prev with
  | true =>
    exact onChain_true h (le_refl _) mem_cons_self (le_refl _)
      fun old hold _ => height_le_of_mem h hold
  | false => exact onChain_false h mem_cons_self (le_refl _) fun _ _ hge => hge

/-- The chain that ends at one of its tipsets. -/
theorem dropWhile_key (h : IsChain chain) (hhead : head ∈ chain) :
    ∃ older, chain.dropWhile (fun ts => decide (ts.key ≠ head.key)) = head :: older ∧
      IsChain (head :: older) := by
  induction chain with
  | nil => cases hhead
  | cons c chain ih =>
    have hc := pairwise_cons.mp h
    rcases mem_cons.mp hhead with rfl | htail
    · exact ⟨chain, dropWhile_cons_of_neg (by simp), h⟩
    · rw [dropWhile_cons_of_pos (by simpa using (hc.1 head htail).2)]
      exact ih hc.2 htail

theorem slot_at (hrep : Rep s w) (hwin : Windows (head :: chain) w) {j : Nat} (hj : j < s.len) :
    s.slot (s.start - j) = tipSetAt (head :: chain) (head.height - j) := by
  rw [hrep.slot_sub (hj.trans_le hrep.len_le)]
  rw [hrep.len_eq] at hj
  obtain ⟨_, heq, hat⟩ := hwin j _ (getElem?_eq_getElem hj)
  cases heq
  rw [getElem?_eq_getElem hj, ← hat]
  rfl

/-- The search upwards from a height `d` below the head. -/
theorem search_up (h : IsChain (head :: chain)) (hrep : Rep s w) (hwin : Windows (head :: chain) w)
    (hd : d < s.len) (hheight : height = head.height - d) :
    .ok (s.search 1 s.len (s.start - d)) = onChain false height (head :: chain) := by
  have hslot : ∀ n : Nat, n ≤ d →
      s.slot (s.start - d + 1 * n) = tipSetAt (head :: chain) (height + n) := by
    intro n hn
    rw [show (s.start : Int) - d + 1 * n = s.start - (d - n : Nat) by omega,
      slot_at hrep hwin (lt_of_le_of_lt (Nat.sub_le d n) hd)]
    congr 1
    omega
  have hsome : (tipSetAt (head :: chain) (height + d)).isSome := by
    rw [hheight, Int.sub_add_cancel, tipSetAt_of_mem h mem_cons_self]
    rfl
  obtain ⟨k, ts, -, hsearch, hts, hnone⟩ := search_finds hslot hd hsome
  obtain ⟨hmem, hat⟩ := mem_of_tipSetAt hts
  rw [hsearch, onChain_false h hmem (by omega) fun old hold hge => ?_]
  -- an earlier one would have been found first
  by_contra hlt
  refine tipSetAt_eq_none.mp (hnone (old.height - height).toNat (by omega)) old hold ?_
  omega

/-- The search downwards, where there is a tipset within the slots in use. -/
theorem search_down (h : IsChain (head :: chain)) (hrep : Rep s w)
    (hwin : Windows (head :: chain) w) (hheight : height = head.height - d)
    (hm : d + m < s.len) (hcached : (tipSetAt (head :: chain) (height - m)).isSome) :
    ∃ ts, s.search (-1) s.byHeight.length (s.start - d) = some ts ∧
      onChain true height (head :: chain) = .ok (some ts) := by
  have hslot : ∀ n : Nat, n ≤ m →
      s.slot (s.start - d + -1 * n) = tipSetAt (head :: chain) (height - n) := by
    intro n hn
    rw [show (s.start : Int) - d + -1 * n = s.start - (d + n : Nat) by omega,
      slot_at hrep hwin (by omega)]
    congr 1
    omega
  have hrounds : m < s.byHeight.length := by
    have := hrep.len_le
    omega
  obtain ⟨k, ts, -, hsearch, hts, hnone⟩ := search_finds hslot hrounds hcached
  obtain ⟨hmem, hat⟩ := mem_of_tipSetAt hts
  refine ⟨ts, hsearch, onChain_true h (by omega) hmem (by omega) fun old hold hge => ?_⟩
  by_contra hlt
  refine tipSetAt_eq_none.mp (hnone (height - old.height).toNat (by omega)) old hold ?_
  omega

theorem getFrom_eq (h : Tracks s chain) {older : List TipSet} {prev : Bool}
    (hdrop : chain.dropWhile (fun ts => decide (ts.key ≠ head.key)) = head :: older)
    (holder : IsChain (head :: older))
    (hcovered : head.height ≤ height ∨ height < head.height - s.len ∨
      (s.head = some head ∧ head.height - s.len < height ∧
        (prev = true → ∃ key ts, s.byKey.get? key = some ts ∧ ts.height ≤ height))) :
    s.getFrom (storageGet chain) height prev head = onChain prev height (head :: older) := by
  obtain ⟨w, hrep, hwin⟩ := h.window
  unfold getFrom
  dsimp only
  split_ifs with hsame hfuture htail hprev
  · rw [← hsame, onChain_head holder]
  · unfold onChain
    dsimp only
    rw [if_pos hfuture]
  · unfold storageGet
    dsimp only
    rw [hdrop]
  all_goals
    obtain ⟨hhead, htail', hcached⟩ := (hcovered.resolve_left (by omega)).resolve_left htail
    obtain ⟨first, rest, rfl, hfirst⟩ := h.head_eq (by omega)
    obtain rfl : first = head := mem_unique hfirst hhead
    obtain rfl : rest = older := by
      rw [dropWhile_cons_of_neg (by simp)] at hdrop
      exact (List.cons.inj hdrop).2
    obtain ⟨d, hd⟩ : ∃ d : Nat, first.height - height = d :=
      Int.eq_ofNat_of_zero_le (by omega)
    rw [hd]
  · obtain rfl : prev = true := hprev
    obtain ⟨key, ts, hget, hle⟩ := hcached rfl
    obtain ⟨j, hj⟩ := mem_iff_getElem?.mp ((hrep.keyed key ts).mp hget).1
    obtain ⟨_, heq, hat⟩ := hwin j (some ts) hj
    cases heq
    have hheight := (mem_of_tipSetAt hat.symm).2
    have hlen : j < s.len := hrep.len_eq ▸ (List.getElem?_eq_some_iff.mp hj).1
    obtain ⟨found, hsearch, hchain⟩ := search_down (d := d) (m := j - d) h.isChain hrep hwin
      (by omega : height = first.height - d) (by omega) (by
        rw [show height - ((j - d : Nat) : Int) = first.height - j by omega, ← hat]
        rfl)
    rw [hsearch, hchain]
  · obtain rfl : prev = false := Bool.eq_false_of_not_eq_true hprev
    exact search_up h.isChain hrep hwin (by omega) (by omega)

theorem tracks_newTSCache (cap : Nat) (h : IsChain chain) : Tracks (newTSCache cap) chain := by
  refine ⟨h, [], ⟨Ring.holds_replicate, id, rfl, fun k ts => ?_, .nil⟩, fun j x hx => ?_⟩
  · refine ⟨fun hget => ?_, fun hmem => nomatch hmem.1⟩
    cases hget
  · cases hx

/-- Of the calls that follow the chain only `add` to a cache without slots fails. -/
theorem call_of_next {cache : TipSetCache} {c : ChainCall}
    (h : Tracks cache chain) (hnext : Follower.next chain c = some chain') :
    (∃ cache', Follower.call cache c = .ok cache' ∧ Tracks cache' chain' ∧
        cache'.byHeight.length = cache.byHeight.length) ∨
      cache.byHeight.length = 0 ∧ Follower.call cache c = .error .divideByZero := by
  cases c with
  | add ts =>
    obtain ⟨hext, ⟨⟩⟩ := ite_none_right_eq_some.mp hnext
    rcases Nat.eq_zero_or_pos cache.byHeight.length with hzero | hpos
    · exact .inr ⟨hzero, if_pos hzero⟩
    · exact .inl (tracks_add h hext hpos)
  | revert ts =>
    obtain ⟨hhead, ⟨⟩⟩ := ite_none_right_eq_some.mp hnext
    rw [eq_cons_of_mem_head? hhead] at h
    exact .inl (tracks_revert h)

theorem tracks_step {s s' : Follower} {c : ChainCall} (h : Tracks s.cache s.chain)
    (hstep : s.step c = some s') :
    Tracks s'.cache s'.chain ∧ s'.cache.byHeight.length = s.cache.byHeight.length := by
  unfold Follower.step at hstep
  split at hstep
  · cases hstep
  next chain hnext =>
  rcases call_of_next h hnext with ⟨cache, hcall, htracks⟩ | ⟨-, hcall⟩
  · rw [hcall] at hstep
    cases hstep
    exact htracks
  · rw [hcall] at hstep
    cases hstep

end CacheLemmas

open CacheLemmas in
/-- A cache with slots that holds the last heights of a chain takes every call that follows it. -/
theorem calls_succeed {s : Follower} (h : Tracks s.cache s.chain)
    (hpos : 0 < s.cache.byHeight.length) {c : ChainCall}
    (hnext : (Follower.next s.chain c).isSome) : (s.step c).isSome := by
  obtain ⟨chain, hchain⟩ := isSome_iff_exists.mp hnext
  rcases call_of_next h hchain with ⟨cache, hcall, -⟩ | ⟨hzero, -⟩
  · unfold Follower.step
    rw [hchain, hcall]
    rfl
  · exact absurd hzero (ne_of_gt hpos)

open CacheLemmas in
/-- Whatever the chain, the capacity and the calls that followed the chain: a lookup that needs no
slot, or that is made from the head of the cache within the slots in use, gives what the storage
gives. -/
theorem cache_answers_of_covered (cap : Nat) (chain : List TipSet) (hchain : IsChain chain)
    (calls : List ChainCall) (states : List Follower)
    (hrun : trace Follower.step ⟨newTSCache cap, chain⟩ calls = some states) :
    ∀ s ∈ states, ∀ height tsk prev, s.cache.Covered height tsk prev →
      s.cache.get (storageGet s.chain) height tsk prev = storageGet s.chain prev height tsk := by
  have hall : ∀ s ∈ states, Tracks s.cache s.chain :=
    trace_forall (fun _ _ _ h hstep => (tracks_step h hstep).1) (tracks_newTSCache cap hchain) hrun
  intro s hs height tsk prev hcovered
  have h := hall s hs
  unfold TipSetCache.get
  split
  · rfl
  · next hlen =>
    have hcovered := hcovered.resolve_left hlen
    cases tsk with
    | none =>
      obtain ⟨first, rest, hc, hhead⟩ := h.head_eq hlen
      have hdrop : s.chain.dropWhile (fun ts => decide (ts.key ≠ first.key)) = first :: rest := by
        rw [hc]
        exact dropWhile_cons_of_neg (by simp)
      rw [hhead]
      dsimp only
      rw [getFrom_eq h hdrop (hc ▸ h.isChain) (hcovered first hhead), ← hc]
      rfl
    | some key =>
      dsimp only
      split
      · rfl
      · next head hget =>
        obtain ⟨w, hrep, hwin⟩ := h.window
        obtain ⟨hmem, hkey⟩ := (hrep.keyed key head).mp hget
        obtain ⟨older, hdrop, holder⟩ := dropWhile_key h.isChain (hwin.mem hmem)
        rw [getFrom_eq h hdrop holder (hcovered head hget), ← hdrop, ← hkey]
        rfl

/-- `ChainHead`, if the storage has the head `best`. -/
def TipSetCache.chainHead (s : TipSetCache) (best : Option TipSet) : Option TipSet := s.head.or best

open CacheLemmas in
/-- The slots from the head backwards have the tipsets of the chain, and the other slots none. -/
structure Follower.Agrees (s : Follower) : Prop where
  used : ∀ k : Nat, k < s.cache.len → ∃ head, s.chain.head? = some head ∧
    s.cache.slot (s.cache.start - k) = tipSetAt s.chain (head.height - k)
  unused : ∀ k : Nat, s.cache.len ≤ k → k < s.cache.byHeight.length →
    s.cache.slot (s.cache.start - k) = none
  keys : ∀ key ts, s.cache.byKey.get? key = some ts ↔
    ts.key = key ∧ ∃ k : Nat, k < s.cache.len ∧ s.cache.slot (s.cache.start - k) = some ts
  head : ∀ best, 0 < s.cache.len → s.cache.chainHead best = s.chain.head?

open CacheLemmas in
theorem CacheLemmas.agrees_of_tracks {s : Follower} (h : Tracks s.cache s.chain) : s.Agrees := by
  obtain ⟨w, hrep, hwin⟩ := h.window
  have hle := hrep.len_le
  have hslot : ∀ k : Nat, k < s.cache.len → w[k]? = some (s.cache.slot (s.cache.start - k)) := by
    intro k hk
    have hw : k < w.length := hrep.len_eq ▸ hk
    rw [hrep.slot_sub (hk.trans_le hle), List.getElem?_eq_getElem hw]
    rfl
  refine ⟨fun k hk => hwin k _ (hslot k hk), fun k hlen hk => ?_, fun key ts => ?_,
    fun best hpos => ?_⟩
  · rw [hrep.slot_sub hk, List.getElem?_eq_none (hrep.len_eq ▸ hlen)]
    rfl
  · rw [hrep.keyed key ts, and_comm, mem_iff_getElem?]
    refine and_congr_right fun _ => exists_congr fun k => ⟨fun hk => ?_, fun ⟨hk, hts⟩ => ?_⟩
    · have hlt : k < s.cache.len := hrep.len_eq ▸ (List.getElem?_eq_some_iff.mp hk).1
      exact ⟨hlt, some.inj ((hslot k hlt).symm.trans hk)⟩
    · rw [hslot k hk, hts]
  · obtain ⟨first, rest, hchain, hhead⟩ := h.head_eq (ne_of_gt hpos)
    rw [TipSetCache.chainHead, hhead, hchain]
    rfl

open CacheLemmas in
/-- In every run of calls that follow a chain, a cache with slots takes every further one, and its
slots, keys and head are those of the chain. -/
theorem cache_follows {cap : Nat} (hcap : 0 < cap) {chain : List TipSet} (hchain : IsChain chain)
    {calls : List ChainCall} {states : List Follower}
    (hrun : trace Follower.step ⟨newTSCache cap, chain⟩ calls = some states) :
    ∀ s ∈ states, (∀ c, (Follower.next s.chain c).isSome → (s.step c).isSome) ∧
      s.cache.byHeight.length = cap ∧ s.Agrees := by
  have hall : ∀ s ∈ states, Tracks s.cache s.chain ∧ s.cache.byHeight.length = cap :=
    trace_forall (fun _ _ _ h hstep => (tracks_step h.1 hstep).imp_right (·.trans h.2))
      ⟨tracks_newTSCache cap hchain, length_replicate⟩ hrun
  intro s hs
  obtain ⟨htracks, hlen⟩ := hall s hs
  exact ⟨fun c => calls_succeed htracks (hlen ▸ hcap), hlen, agrees_of_tracks htracks⟩

/-- Tipsets at 1, 4 and 5 after the first one, in a cache with three slots: that of height 3 is
the last in use. -/
def shortCalls : List ChainCall := [.add ⟨1, 0, 1⟩, .add ⟨4, 1, 4⟩, .add ⟨5, 4, 5⟩]

theorem cache_follows_short : ∃ states,
    trace Follower.step ⟨newTSCache 3, [⟨0, 9, 0⟩]⟩ shortCalls = some states ∧
      (∃ s ∈ states, s.cache.len = 3) ∧ ∀ s ∈ states, s.Agrees :=
  exists_trace_and (by decide) fun _ hrun s hs =>
    (cache_follows (by decide) (pairwise_singleton _ _) hrun s hs).2.2

/-- The last tipset at or below 4, from the head at 5. -/
theorem cache_answers_of_covered_from_head : ∃ states,
    trace Follower.step ⟨newTSCache 3, [⟨0, 9, 0⟩]⟩ shortCalls = some states ∧
      ∃ s ∈ states, s.cache.Covered 4 none true ∧
        s.cache.get (storageGet s.chain) 4 none true = storageGet s.chain true 4 none := by
  refine exists_trace_imp (p := fun states => ∃ s ∈ states, s.cache.head = some ⟨5, 4, 5⟩ ∧
    s.cache.len = 3 ∧ s.cache.byKey.get? 4 = some ⟨4, 1, 4⟩) (by decide) ?_
  rintro states h ⟨s, hs, hhead, hlen, hcached⟩
  have hcovered : s.cache.Covered 4 none true := by
    refine .inr fun head hresolve => .inr (.inr ⟨hresolve, ?_, fun _ => ⟨4, _, hcached, ?_⟩⟩)
    · cases hhead.symm.trans hresolve
      rw [hlen]
      decide
    · decide
  have hchain : IsChain [⟨0, 9, 0⟩] := pairwise_singleton _ _
  exact ⟨s, hs, hcovered,
    cache_answers_of_covered 3 _ hchain shortCalls states h s hs 4 none true hcovered⟩

/-- Three lookups that end in the slot of another height: at the tail, below the cached tipsets
and from an older tipset. The storage has the tipsets at 4, 1 and 1. -/
theorem cache_answers_wrong : ∃ states,
    trace Follower.step ⟨newTSCache 3, [⟨0, 9, 0⟩]⟩ shortCalls = some states ∧
      ∃ s ∈ states, s.cache.get (storageGet s.chain) 2 none false = .ok (some ⟨5, 4, 5⟩) ∧
        storageGet s.chain false 2 none = .ok (some ⟨4, 1, 4⟩) ∧
        s.cache.get (storageGet s.chain) 3 none true = .ok (some ⟨5, 4, 5⟩) ∧
        storageGet s.chain true 3 none = .ok (some ⟨1, 0, 1⟩) ∧
        s.cache.get (storageGet s.chain) 3 (some 4) true = .ok (some ⟨4, 1, 4⟩) ∧
        storageGet s.chain true 3 (some 4) = .ok (some ⟨1, 0, 1⟩) :=
  exists_trace (by decide)

end OpenDsn.Events
