import Mathlib.Data.List.Sort

/-!
# The sort functions of Go

`sort.Slice` promises a permutation that is sorted when `less` is a strict weak
order; equal elements come in any order. A `Sorter` is any function with this
contract. `sort.SliceStable` is a stable sort, of which there is one only.
A `Sorting` is such a function for one `less`.
-/

namespace OpenDsn.Lib

/-- What `sort.Interface` asks of `less`. -/
structure StrictWeak {α : Type} (less : α → α → Bool) : Prop where
  asymm : ∀ a b, less a b = true → less b a = false
  not_trans : ∀ a b c, less b a = false → less c b = false → less c a = false

theorem StrictWeak.of_key {α β : Type} [LinearOrder β] {less : α → α → Bool} {key : α → β}
    (h : ∀ a b, less a b = true ↔ key a < key b) : StrictWeak less := by
  have hfalse : ∀ a b, less a b = false ↔ key b ≤ key a := fun a b => by
    rw [← Bool.not_eq_true, h, not_lt]
  refine ⟨fun a b hab => ?_, fun a b c hba hcb => ?_⟩
  · rw [hfalse]
    exact le_of_lt ((h a b).mp hab)
  · rw [hfalse] at hba hcb ⊢
    exact le_trans hba hcb

/-- `sort.SliceStable`. -/
def stableSort {α : Type} (less : α → α → Bool) (l : List α) : List α :=
  l.insertionSort fun a b => less b a = false

section Stable

variable {α : Type} {less : α → α → Bool} {l : List α}

theorem stableSort_perm : (stableSort less l).Perm l := List.perm_insertionSort _ _

theorem stableSort_sorted (h : StrictWeak less) :
    (stableSort less l).Pairwise fun a b => less b a = false := by
  have : Std.Total fun a b => less b a = false := by
    refine ⟨fun a b => ?_⟩
    cases hba : less b a with
    | false => exact .inl rfl
    | true => exact .inr (h.asymm b a hba)
  have : IsTrans α fun a b => less b a = false := ⟨h.not_trans⟩
  exact List.pairwise_insertionSort _ _

end Stable

/-- A function with the contract of `sort.Slice`. -/
structure Sorter where
  sort : {α : Type} → (α → α → Bool) → List α → List α
  perm : ∀ {α : Type} (less : α → α → Bool) (l : List α), (sort less l).Perm l
  sorted : ∀ {α : Type} {less : α → α → Bool} (l : List α), StrictWeak less →
    (sort less l).Pairwise fun a b => less b a = false

/-- A stable sort is one. -/
def stableSorter : Sorter where
  sort := stableSort
  perm _ _ := stableSort_perm
  sorted _ h := stableSort_sorted h

/-- A function with the contract of `sort.Sort`, for one `less` that meets what it asks for. -/
structure Sorting {α : Type} (less : α → α → Bool) where
  sort : List α → List α
  perm : ∀ l, (sort l).Perm l
  sorted : ∀ l, (sort l).Pairwise fun a b => less b a = false

/-- The stable sort. -/
def Sorting.stable {α : Type} {less : α → α → Bool} (h : StrictWeak less) : Sorting less where
  sort := stableSort less
  perm _ := stableSort_perm
  sorted _ := stableSort_sorted h

end OpenDsn.Lib
