import Mathlib.Data.Int.ModEq
import Mathlib.Data.List.Basic

/-!
# Slots in a ring

A fixed number of slots, any of which may be empty, read around a ring: the slot at a place is
that of the place modulo their number. A window of the last entries is written from a place
`start` backwards.

* `Holds`: the slots hold a window, and are empty elsewhere;
* `Holds.push`, `Holds.pop`: an entry is put before the window, or taken from it.
-/

namespace OpenDsn.Lib.Ring

open List

variable {α : Type} {slots : List (Option α)} {start : Int} {x : Option α} {w : List (Option α)}
  {cap : Nat}

/-- The index of a place. -/
def index (cap : Nat) (i : Int) : Nat := (i % cap).toNat

/-- The entry at a place. -/
def slot (slots : List (Option α)) (i : Int) : Option α := (slots[index slots.length i]?).join

variable (slots start w) in
/-- The slots hold `w`, newest entry first, at `start` and before it. -/
structure Holds : Prop where
  length_le : w.length ≤ slots.length
  slot_eq : ∀ j : Nat, j < slots.length → slot slots (start - j) = (w[j]?).join

theorem index_lt (h : 0 < cap) (i : Int) : index cap i < cap := by
  unfold index
  have hlt := Int.emod_lt_of_pos i (Int.natCast_pos.mpr h)
  omega

theorem index_natCast {n : Nat} (h : n < cap) : index cap n = n := by
  unfold index
  rw [Int.emod_eq_of_lt (Int.natCast_nonneg n) (Int.ofNat_lt.mpr h), Int.toNat_natCast]

theorem index_eq_iff (h : 0 < cap) {i j : Int} :
    index cap i = index cap j ↔ (cap : Int) ∣ j - i := by
  have hi := Int.emod_nonneg i (Int.natCast_ne_zero.mpr (ne_of_gt h))
  have hj := Int.emod_nonneg j (Int.natCast_ne_zero.mpr (ne_of_gt h))
  rw [← Int.modEq_iff_dvd]
  unfold index Int.ModEq
  omega

/-- Two places less than one round apart. -/
theorem index_ne (h : 0 < cap) {i : Int} {d : Nat} (hpos : 0 < d) (hlt : d < cap) :
    index cap i ≠ index cap (i - d) := by
  rw [Ne, index_eq_iff h]
  intro hdvd
  have hd : (cap : Int) ∣ d := by
    have := (Int.dvd_neg).mpr hdvd
    rwa [show -(i - d - i) = (d : Int) by omega] at this
  exact not_lt.mpr (Nat.le_of_dvd hpos (Int.natCast_dvd_natCast.mp hd)) hlt

theorem index_sub_cap (h : 0 < cap) (i : Int) : index cap (i - cap) = index cap i :=
  (index_eq_iff h).mpr ⟨1, by omega⟩

theorem index_index_add (h : 0 < cap) (i j : Int) :
    index cap (index cap i + j) = index cap (i + j) := by
  have hi := Int.emod_nonneg i (Int.natCast_ne_zero.mpr (ne_of_gt h))
  rw [index_eq_iff h]
  have hindex : (index cap i : Int) = i % cap := Int.toNat_of_nonneg hi
  rw [hindex, show i + j - (i % cap + j) = i - i % cap by omega]
  exact Int.dvd_self_sub_emod

theorem slot_index_sub (h : 0 < slots.length) (i : Int) (j : Nat) :
    slot slots (index slots.length i - j) = slot slots (i - j) := by
  unfold slot
  rw [Int.sub_eq_add_neg, index_index_add h, ← Int.sub_eq_add_neg]

theorem slot_set (i : Int) (h : 0 < slots.length) (j : Int) :
    slot (slots.set (index slots.length i) x) j =
      if index slots.length i = index slots.length j then x else slot slots j := by
  unfold slot
  rw [length_set, getElem?_set, if_pos (index_lt h i)]
  split
  · rfl
  · rfl

theorem Holds.push (hw : Holds slots start w) (h : 0 < slots.length) :
    Holds (slots.set (index slots.length (start + 1)) x) (index slots.length (start + 1))
      ((x :: w).take slots.length) where
  length_le := by
    rw [length_set]
    exact length_take_le _ _
  slot_eq j hj := by
    rw [length_set] at hj
    have hplace : slot (slots.set (index slots.length (start + 1)) x)
        (index slots.length (start + 1) - j) =
          slot (slots.set (index slots.length (start + 1)) x) (start + 1 - j) := by
      have hlen : 0 < (slots.set (index slots.length (start + 1)) x).length := by
        rwa [length_set]
      have := slot_index_sub hlen (start + 1) j
      rwa [length_set] at this
    rw [hplace, slot_set _ h, getElem?_take_of_lt hj]
    cases j with
    | zero =>
      rw [if_pos (by rw [Int.natCast_zero, sub_zero])]
      rfl
    | succ j =>
      rw [if_neg (index_ne h (Nat.succ_pos j) hj), getElem?_cons_succ,
        show start + 1 - ((j + 1 : Nat) : Int) = start - j by omega]
      exact hw.slot_eq j (Nat.lt_of_succ_lt hj)

theorem Holds.pop (hw : Holds slots start (x :: w)) :
    Holds (slots.set (index slots.length start) none) (index slots.length (start - 1)) w where
  length_le := by
    rw [length_set]
    exact Nat.le_of_succ_le hw.length_le
  slot_eq j hj := by
    rw [length_set] at hj
    have h : 0 < slots.length := Nat.lt_of_le_of_lt (Nat.zero_le j) hj
    have hplace : slot (slots.set (index slots.length start) none)
        (index slots.length (start - 1) - j) =
          slot (slots.set (index slots.length start) none) (start - ((j + 1 : Nat) : Int)) := by
      have hlen : 0 < (slots.set (index slots.length start) (none : Option α)).length := by
        rwa [length_set]
      have := slot_index_sub hlen (start - 1) j
      rwa [length_set, show start - 1 - (j : Int) = start - ((j + 1 : Nat) : Int) by omega]
        at this
    rw [hplace, slot_set _ h]
    by_cases hlast : j + 1 = slots.length
    · -- once around the ring is the slot that was emptied
      rw [hlast, if_pos (index_sub_cap h start).symm, getElem?_eq_none]
      · rfl
      · have := hw.length_le
        rw [length_cons] at this
        omega
    · have hlt : j + 1 < slots.length := Nat.lt_of_le_of_ne hj hlast
      rw [if_neg (index_ne h (Nat.succ_pos j) hlt), hw.slot_eq (j + 1) hlt, getElem?_cons_succ]

/-- The slot before the window, which the next entry takes, holds the entry that falls out. -/
theorem Holds.slot_next (hw : Holds slots start w) (h : 0 < slots.length) :
    slot slots (start + 1) = (w[slots.length - 1]?).join := by
  rw [← hw.slot_eq (slots.length - 1) (Nat.sub_lt h one_pos)]
  unfold slot
  rw [← index_sub_cap h (start + 1),
    show start + 1 - (slots.length : Int) = start - ((slots.length - 1 : Nat) : Int) by omega]

theorem holds_replicate :
    Holds (List.replicate cap (none : Option α)) start [] where
  length_le := Nat.zero_le _
  slot_eq j _ := by
    unfold slot
    rw [getElem?_replicate]
    split
    · rfl
    · rfl

end OpenDsn.Lib.Ring
