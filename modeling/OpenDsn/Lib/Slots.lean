import Mathlib.Data.List.Basic

/-!
# Numbered slots

Threads, timers and requests are kept in a list and named by their place in it.
What a place holds after one was added, overwritten or changed.
-/

namespace OpenDsn.Lib

open List Option

variable {α : Type} {l l' : List α} {i k : Nat} {a b : α}

theorem forall_mem_snoc {P : α → Prop} (h : ∀ a ∈ l, P a) (hb : P b) : ∀ a ∈ l ++ [b], P a :=
  forall_mem_append.mpr ⟨h, forall_mem_singleton.mpr hb⟩

theorem forall_mem_set {P : α → Prop} (h : ∀ a ∈ l, P a) (hb : P b) : ∀ a ∈ l.set i b, P a := by
  intro a ha
  rcases mem_or_eq_of_mem_set ha with ha | rfl
  · exact h a ha
  · exact hb

theorem getElem?_append_of_some (h : l[k]? = some a) : (l ++ l')[k]? = some a := by
  rw [List.getElem?_append_left (List.getElem?_eq_some_iff.mp h).1, h]

/-- An element of a list to which one was added is one of before or the new one. -/
theorem getElem?_concat_cases (h : (l ++ [b])[k]? = some a) :
    l[k]? = some a ∨ k = l.length ∧ a = b := by
  rw [getElem?_append] at h
  split at h
  · exact .inl h
  · next hge =>
    rw [getElem?_singleton] at h
    split at h
    · next hk =>
      exact .inr ⟨Nat.le_antisymm (Nat.sub_eq_zero_iff_le.mp hk) (Nat.not_lt.mp hge),
        (some.inj h).symm⟩
    · cases h

theorem getElem?_set_cases (h : (l.set i b)[k]? = some a) :
    (k = i ∧ a = b) ∨ (k ≠ i ∧ l[k]? = some a) := by
  by_cases hk : k = i
  · subst hk
    have hlt := (List.getElem?_eq_some_iff.mp h).1
    rw [List.length_set] at hlt
    rw [List.getElem?_set_self hlt] at h
    exact .inl ⟨rfl, (some.inj h).symm⟩
  · rw [List.getElem?_set_ne (Ne.symm hk)] at h
    exact .inr ⟨hk, h⟩

theorem mem_modify {f : α → α} (h : a ∈ l.modify i f) :
    a ∈ l ∨ ∃ b, l[i]? = some b ∧ a = f b := by
  obtain ⟨k, hk⟩ := mem_iff_getElem?.mp h
  rw [getElem?_modify] at hk
  obtain ⟨b, hb, rfl⟩ := map_eq_some_iff.mp hk
  split
  · next hi => exact .inr ⟨b, hi ▸ hb, rfl⟩
  · exact .inl (mem_of_getElem? hb)

end OpenDsn.Lib
