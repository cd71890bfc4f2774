import OpenDsn.Lib.Slots
import OpenDsn.Lib.Table

/-!
# Interned lists

Items get indices in the order in which they first occur, and an item that occurs again
gets the index it has. A list of items becomes a list of indices into the items so far.

* `Interned.addLists_select`: the indices of each list select the list they were made
  from, out of the items of all lists;
* `select_map`: so they do when all items are replaced by their images.
-/

namespace OpenDsn.Lib

open List

/-- The items at some indices; `none` where an index is out of range. -/
def select {α : Type} (items : List α) : List Nat → Option (List α)
  | [] => some []
  | i :: rest =>
      match items[i]?, select items rest with
      | some a, some as => some (a :: as)
      | _, _ => none

variable {α : Type} {items as : List α} {is : List Nat}

theorem select_eq_some :
    select items is = some as ↔ is.map (items[·]?) = as.map some := by
  induction is generalizing as with
  | nil => cases as <;> simp [select]
  | cons i rest ih =>
    unfold select
    cases hi : items[i]? with
    | none => cases as <;> simp [hi]
    | some a =>
      cases hrest : select items rest with
      | none =>
        cases as with
        | nil => simp
        | cons a' as =>
          have hne : ¬ rest.map (items[·]?) = as.map some :=
            fun h => Option.some_ne_none _ ((ih.mpr h).symm.trans hrest)
          simp [hi, hne]
      | some as' =>
        cases as with
        | nil => simp
        | cons a' as =>
          rw [hrest] at ih
          simp [hi, ← ih]

theorem lt_of_select (h : select items is = some as) : ∀ i ∈ is, i < items.length := by
  intro i hi
  have hmem : items[i]? ∈ as.map some := by
    rw [← select_eq_some.mp h]
    exact mem_map_of_mem hi
  obtain ⟨a, -, ha⟩ := mem_map.mp hmem
  exact (List.getElem?_eq_some_iff.mp ha.symm).1

/-- Selecting from the images of the items. -/
theorem select_map {β : Type} {f : α → Option β} {images : List β}
    (hitems : items.map f = images.map some) (hsel : select items is = some as) :
    is.map (images[·]?) = as.map f := by
  rw [select_eq_some] at hsel
  induction is generalizing as with
  | nil =>
    cases as with
    | nil => rfl
    | cons a as => cases hsel
  | cons i rest ih =>
    cases as with
    | nil => cases hsel
    | cons a as =>
      obtain ⟨hi, hrest⟩ := List.cons.inj hsel
      have himage : (images.map some)[i]? = some (f a) := by
        rw [← hitems, getElem?_map, show items[i]? = some a from hi]
        rfl
      rw [map_cons, map_cons, ih hrest]
      congr 1
      rw [getElem?_map] at himage
      cases himg : images[i]? with
      | none => rw [himg] at himage; cases himage
      | some b => rw [himg] at himage; exact Option.some.inj himage

/-- The items so far and the index of each. -/
structure Interned (α : Type) [DecidableEq α] where
  index : Table α Nat
  items : List α
  get_index : ∀ {a : α} {i : Nat}, index.get? a = some i → items[i]? = some a

namespace Interned

variable [DecidableEq α]

def empty : Interned α := ⟨∅, [], fun h => nomatch h⟩

/-- The item that was not seen before is put at the end. -/
def push (t : Interned α) (a : α) : Interned α where
  index := t.index.insert a t.items.length
  items := t.items ++ [a]
  get_index := by
    intro b i h
    rcases Table.get?_insert_cases h with ⟨rfl, rfl⟩ | ⟨-, h⟩
    · exact List.getElem?_concat_length
    · exact getElem?_append_of_some (t.get_index h)

def add (t : Interned α) (a : α) : Nat × Interned α :=
  match t.index.get? a with
  | some i => (i, t)
  | none => (t.items.length, t.push a)

def addAll (t : Interned α) : List α → List Nat × Interned α
  | [] => ([], t)
  | a :: as =>
      match t.add a with
      | (i, t) =>
          match t.addAll as with
          | (is, t) => (i :: is, t)

/-- The indices of several lists. -/
def addLists (t : Interned α) : List (List α) → List (List Nat) × Interned α
  | [] => ([], t)
  | as :: rest =>
      match t.addAll as with
      | (is, t) =>
          match t.addLists rest with
          | (iss, t) => (is :: iss, t)

section

variable (t : Interned α)
include t

theorem add_items (a : α) : t.items <+: (t.add a).2.items := by
  unfold add
  split
  · exact prefix_rfl
  · exact prefix_append _ _

theorem get_add (a : α) : (t.add a).2.items[(t.add a).1]? = some a := by
  unfold add
  split
  · next h => exact t.get_index h
  · exact getElem?_concat_length

theorem addAll_items (as : List α) : t.items <+: (t.addAll as).2.items := by
  induction as generalizing t with
  | nil => exact prefix_rfl
  | cons a as ih => exact (t.add_items a).trans (ih (t.add a).2)

theorem addAll_select (as : List α)
    (h : (t.addAll as).2.items <+: items) : select items (t.addAll as).1 = some as := by
  induction as generalizing t with
  | nil => rfl
  | cons a as ih =>
    have hrest := ih (t.add a).2 h
    have hget : items[(t.add a).1]? = some a := by
      obtain ⟨more, rfl⟩ := ((t.add a).2.addAll_items as).trans h
      exact getElem?_append_of_some (t.get_add a)
    show (match items[(t.add a).1]?, select items ((t.add a).2.addAll as).1 with
      | some a, some as => some (a :: as)
      | _, _ => none) = some (a :: as)
    rw [hget, hrest]

theorem addLists_items (lists : List (List α)) : t.items <+: (t.addLists lists).2.items := by
  induction lists generalizing t with
  | nil => exact prefix_rfl
  | cons as rest ih => exact (t.addAll_items as).trans (ih (t.addAll as).2)

theorem addLists_select (lists : List (List α))
    (h : (t.addLists lists).2.items <+: items) :
    List.Forall₂ (fun as is => select items is = some as) lists (t.addLists lists).1 := by
  induction lists generalizing t with
  | nil => exact .nil
  | cons as rest ih =>
    exact .cons (t.addAll_select as (((t.addAll as).2.addLists_items rest).trans h))
      (ih (t.addAll as).2 h)

end

/-! ### Where the items come from -/

theorem mem_add_items {t : Interned α} {a b : α} (h : b ∈ (t.add a).2.items) :
    b ∈ t.items ∨ b = a := by
  unfold add at h
  split at h
  · exact .inl h
  · rcases mem_append.mp h with h | h
    · exact .inl h
    · exact .inr (mem_singleton.mp h)

theorem mem_addAll_items {t : Interned α} {b : α}
    (h : b ∈ (t.addAll as).2.items) : b ∈ t.items ∨ b ∈ as := by
  induction as generalizing t with
  | nil => exact .inl h
  | cons a as ih =>
    rcases ih (t := (t.add a).2) h with h | h
    · rcases mem_add_items h with h | rfl
      · exact .inl h
      · exact .inr mem_cons_self
    · exact .inr (mem_cons_of_mem _ h)

theorem mem_addLists_items {t : Interned α} {lists : List (List α)} {b : α}
    (h : b ∈ (t.addLists lists).2.items) : b ∈ t.items ∨ ∃ as ∈ lists, b ∈ as := by
  induction lists generalizing t with
  | nil => exact .inl h
  | cons as rest ih =>
    rcases ih (t := (t.addAll as).2) h with h | ⟨as', has', h⟩
    · rcases mem_addAll_items h with h | h
      · exact .inl h
      · exact .inr ⟨as, mem_cons_self, h⟩
    · exact .inr ⟨as', mem_cons_of_mem _ has', h⟩

end Interned

end OpenDsn.Lib
