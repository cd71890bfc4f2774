import Mathlib.Data.Set.Card

/-!
# Ancestry along parent links

Each node has at most one parent, `parent : α → Option α`. A node descends from
itself, from its parent, and so on. Moving from one node to another abandons what
the first descends from and the second does not.

* `abandoned_encard_le`: going back `n` steps to a common ancestor abandons at
  most `n` nodes;
* `Descends.parent_of_ne`: whatever a node descends from, other than itself, its
  parent descends from.
-/

namespace OpenDsn.Lib

variable {α : Type*} {parent : α → Option α} {a b c p old new : α} {n : Nat}

/-- `b` is `a` or one of its ancestors. -/
def Descends (parent : α → Option α) : α → α → Prop :=
  Relation.ReflTransGen fun x y => parent x = some y

/-- `b` is the ancestor of `a` that is `n` links away. -/
inductive Back (parent : α → Option α) : Nat → α → α → Prop
  | here {a : α} : Back parent 0 a a
  | link {n : Nat} {a p b : α} : parent a = some p → Back parent n p b → Back parent (n + 1) a b

/-- What is left behind on the way from `old` to `new`. -/
def abandoned (parent : α → Option α) (old new : α) : Set α :=
  {x | Descends parent old x ∧ ¬ Descends parent new x}

namespace Descends

theorem refl (a : α) : Descends parent a a := Relation.ReflTransGen.refl

theorem trans (h : Descends parent a b) (h' : Descends parent b c) : Descends parent a c :=
  Relation.ReflTransGen.trans h h'

theorem of_parent (hp : parent a = some p) (h : Descends parent p b) : Descends parent a b :=
  Relation.ReflTransGen.head hp h

theorem parent_of_ne (h : Descends parent a b) (hne : a ≠ b) (hp : parent a = some p) :
    Descends parent p b := by
  rcases Relation.ReflTransGen.cases_head h with heq | ⟨q, hq, hqb⟩
  · exact absurd heq hne
  · obtain rfl := Option.mem_unique hp hq
    exact hqb

end Descends

/-- A node and its parent abandon the same, the node itself apart. -/
theorem abandoned_subset_insert (hp : parent old = some p) :
    abandoned parent old new ⊆ insert old (abandoned parent p new) := by
  rintro x ⟨hx, hnew⟩
  by_cases heq : old = x
  · exact .inl heq.symm
  · exact .inr ⟨hx.parent_of_ne heq hp, hnew⟩

theorem abandoned_encard_le (h : Back parent n old c) (hc : Descends parent new c) :
    (abandoned parent old new).encard ≤ n := by
  induction h with
  | here =>
    have hempty : abandoned parent _ new = ∅ :=
      Set.eq_empty_iff_forall_notMem.mpr fun x hx => hx.2 (hc.trans hx.1)
    rw [hempty, Set.encard_empty]
    exact zero_le
  | @link n old p c hp _ ih =>
    calc (abandoned parent old new).encard
        ≤ (insert old (abandoned parent p new)).encard :=
          Set.encard_le_encard (abandoned_subset_insert hp)
      _ ≤ (abandoned parent p new).encard + 1 := Set.encard_insert_le _ _
      _ ≤ n + 1 := by gcongr; exact ih hc
      _ = (n + 1 : Nat) := by push_cast; rfl

end OpenDsn.Lib
