import Mathlib.Data.List.Infix
import Mathlib.Data.List.Nodup
import Mathlib.Data.List.Range

/-!
# Pieces taken in order of dependency

Every owner has a list of chains of items, where a chain depends on the chains
before it. Pieces of chains are taken one after the other: an initial part of a
chain, once, and only when all chains of the owner before it are taken in full.

* `Taken.owned`: what is taken of an owner is an initial part of the owner's
  items, in their order.
-/

namespace OpenDsn.Lib

open List

/-- A part of the chain `index` of `owner`. -/
structure Piece (ι α : Type) where
  owner : ι
  index : Nat
  items : List α

variable {ι α : Type}

/-- The items of some pieces. -/
def itemsOf (T : List (Piece ι α)) : List α := T.flatMap Piece.items

@[simp] theorem itemsOf_nil : itemsOf ([] : List (Piece ι α)) = [] := rfl

@[simp] theorem itemsOf_append (T U : List (Piece ι α)) :
    itemsOf (T ++ U) = itemsOf T ++ itemsOf U := flatMap_append

@[simp] theorem itemsOf_singleton (p : Piece ι α) : itemsOf [p] = p.items := by
  simp [itemsOf]

/-- The pieces in the order in which they were taken. -/
inductive Taken (chains : ι → List (List α)) : List (Piece ι α) → Prop where
  | nil : Taken chains []
  | snoc {T : List (Piece ι α)} {p : Piece ι α} {full : List α} (taken : Taken chains T)
      (fresh : ∀ q ∈ T, q.owner = p.owner → q.index ≠ p.index)
      (chain : (chains p.owner)[p.index]? = some full) (part : p.items <+: full)
      (deps : ∀ j < p.index, ∀ c, (chains p.owner)[j]? = some c → ⟨p.owner, j, c⟩ ∈ T) :
      Taken chains (T ++ [p])

variable {chains chains' : ι → List (List α)} {T U : List (Piece ι α)} {p : Piece ι α}

section

variable (h : Taken chains T)
include h

/-- Every piece comes from a chain of its owner. -/
theorem Taken.chain_of_mem (hp : p ∈ T) :
    ∃ full, (chains p.owner)[p.index]? = some full ∧ p.items <+: full := by
  induction h with
  | nil => cases hp
  | snoc _ _ hchain hpart _ ih =>
    rcases mem_append.mp hp with hp | hp
    · exact ih hp
    · obtain rfl := mem_singleton.mp hp
      exact ⟨_, hchain, hpart⟩

/-- The chains before a taken one are taken in full. -/
theorem Taken.deps_of_mem (hp : p ∈ T) :
    ∀ j < p.index, ∀ c, (chains p.owner)[j]? = some c → ⟨p.owner, j, c⟩ ∈ T := by
  induction h with
  | nil => cases hp
  | snoc _ _ _ _ hdeps ih =>
    intro j hj c hc
    rcases mem_append.mp hp with hp | hp
    · exact mem_append_left _ (ih hp j hj c hc)
    · obtain rfl := mem_singleton.mp hp
      exact mem_append_left _ (hdeps j hj c hc)

/-- The chains matter only for the owners that occur. -/
theorem Taken.congr (heq : ∀ p ∈ T, chains' p.owner = chains p.owner) : Taken chains' T := by
  induction h with
  | nil => exact .nil
  | @snoc T p full _ hfresh hchain hpart hdeps ih =>
    have hp : chains' p.owner = chains p.owner := heq p (by simp)
    refine .snoc (ih fun q hq => heq q (by simp [hq])) hfresh (hp ▸ hchain) hpart ?_
    rw [hp]
    exact hdeps

/-- Pieces of other owners may be taken before. -/
theorem Taken.append (h' : Taken chains U)
    (hdisj : ∀ p ∈ T, ∀ q ∈ U, p.owner ≠ q.owner) : Taken chains (T ++ U) := by
  induction h' with
  | nil => rwa [append_nil]
  | @snoc U p full _ hfresh hchain hpart hdeps ih =>
    rw [← append_assoc]
    refine .snoc (ih fun x hx q hq => hdisj x hx q (by simp [hq])) ?_ hchain hpart
      fun j hj c hc => mem_append_right _ (hdeps j hj c hc)
    refine forall_mem_append.mpr ⟨fun q hq howner => ?_, hfresh⟩
    exact absurd howner (hdisj q hq p (by simp))

end

section Owned

variable [DecidableEq ι] {o : ι}

/-- The pieces of one owner. -/
def ownedBy (o : ι) (T : List (Piece ι α)) : List (Piece ι α) := T.filter fun p => p.owner = o

theorem mem_ownedBy : p ∈ ownedBy o T ↔ p ∈ T ∧ p.owner = o := by
  simp [ownedBy]

theorem ownedBy_snoc (o : ι) :
    ownedBy o (T ++ [p]) = if p.owner = o then ownedBy o T ++ [p] else ownedBy o T := by
  unfold ownedBy
  split
  · next h => simp [h]
  · next h => simp [h]

/-- The next chain to be taken of an owner is the first that is not taken. -/
theorem next_index {i : Nat} {full : List α}
    (hindex : (ownedBy o T).map Piece.index = List.range (ownedBy o T).length)
    (hfresh : ∀ q ∈ T, q.owner = o → q.index ≠ i) (hchain : (chains o)[i]? = some full)
    (hdeps : ∀ j < i, ∀ c, (chains o)[j]? = some c → ⟨o, j, c⟩ ∈ T) :
    i = (ownedBy o T).length := by
  obtain ⟨hi, -⟩ := List.getElem?_eq_some_iff.mp hchain
  have hmem : ∀ j, j < (ownedBy o T).length ↔ ∃ q ∈ T, q.owner = o ∧ q.index = j := by
    intro j
    rw [← mem_range, ← hindex, mem_map]
    simp only [mem_ownedBy, and_assoc]
  refine le_antisymm (Nat.le_of_not_lt fun hlt => ?_) (Nat.le_of_not_lt fun hlt => ?_)
  · -- the chain at the place of the first missing one would have to be there
    have hlen : (ownedBy o T).length < (chains o).length := hlt.trans hi
    have := (hmem (ownedBy o T).length).mpr
      ⟨_, hdeps _ hlt _ (List.getElem?_eq_getElem hlen), rfl, rfl⟩
    exact lt_irrefl _ this
  · obtain ⟨q, hq, howner, hqi⟩ := (hmem i).mp hlt
    exact hfresh q hq howner hqi

theorem Taken.index_eq (h : Taken chains T) (o : ι) :
    (ownedBy o T).map Piece.index = List.range (ownedBy o T).length := by
  induction h with
  | nil => rfl
  | @snoc T p full _ hfresh hchain _ hdeps ih =>
    rw [ownedBy_snoc]
    split
    · next howner =>
      subst howner
      have hi := next_index ih hfresh hchain hdeps
      rw [map_append, ih, length_append, length_singleton, range_succ,
        map_singleton, hi]
    · exact ih

/-- Where the first `n` chains of an owner are taken in full and no other, they
are what is taken of the owner. -/
theorem items_eq_take {n : Nat} (hn : n = (ownedBy o T).length)
    (hindex : (ownedBy o T).map Piece.index = List.range (ownedBy o T).length)
    (hlen : n ≤ (chains o).length)
    (hdeps : ∀ j < n, ∀ c, (chains o)[j]? = some c → ⟨o, j, c⟩ ∈ T) :
    (ownedBy o T).map Piece.items = (chains o).take n := by
  refine ext_getElem? fun j => ?_
  by_cases hj : j < n
  · obtain ⟨c, hc⟩ : ∃ c, (chains o)[j]? = some c :=
      ⟨_, List.getElem?_eq_getElem (hj.trans_le hlen)⟩
    have hmem : ⟨o, j, c⟩ ∈ ownedBy o T := mem_ownedBy.mpr ⟨hdeps j hj c hc, rfl⟩
    obtain ⟨k, hk⟩ := mem_iff_getElem?.mp hmem
    -- the piece with index `j` stands at place `j`
    have hkj : j = k := by
      have hidx : ((ownedBy o T).map Piece.index)[k]? = some j := by
        rw [List.getElem?_map, hk]; rfl
      rw [hindex] at hidx
      obtain ⟨_, h⟩ := List.getElem?_eq_some_iff.mp hidx
      simpa using h.symm
    rw [List.getElem?_take_of_lt hj, hc, hkj, List.getElem?_map, hk]
    rfl
  · rw [List.getElem?_eq_none (by simp; omega), List.getElem?_eq_none (by simp; omega)]

/-- What is taken of an owner is an initial part of the owner's items. -/
theorem Taken.owned (h : Taken chains T) (o : ι) :
    itemsOf (ownedBy o T) <+: (chains o).flatten := by
  induction h with
  | nil => exact nil_prefix
  | @snoc T p full htaken hfresh hchain hpart hdeps ih =>
    rw [ownedBy_snoc]
    split
    · next howner =>
      subst howner
      have hindex := htaken.index_eq p.owner
      have hi := next_index hindex hfresh hchain hdeps
      obtain ⟨hlt, hfull⟩ := List.getElem?_eq_some_iff.mp hchain
      have hitems := items_eq_take hi hindex (le_of_lt hlt) hdeps
      have hbefore : itemsOf (ownedBy p.owner T) = ((chains p.owner).take p.index).flatten := by
        rw [← hitems, itemsOf, flatMap_def]
      rw [itemsOf_append, itemsOf_singleton, hbefore]
      obtain ⟨rest, hrest⟩ := hpart
      refine ⟨rest ++ ((chains p.owner).drop (p.index + 1)).flatten, ?_⟩
      calc ((chains p.owner).take p.index).flatten ++ p.items ++
            (rest ++ ((chains p.owner).drop (p.index + 1)).flatten)
          = ((chains p.owner).take p.index).flatten ++
            (full ++ ((chains p.owner).drop (p.index + 1)).flatten) := by
              rw [← hrest]; simp only [append_assoc]
        _ = ((chains p.owner).take p.index ++ (chains p.owner).drop p.index).flatten := by
              rw [drop_eq_getElem_cons hlt, hfull]; simp
        _ = (chains p.owner).flatten := by rw [take_append_drop]
    · exact ih

end Owned

end OpenDsn.Lib
