import Mathlib.Algebra.GroupWithZero.Nat
import Mathlib.Algebra.Order.BigOperators.Group.List
import Mathlib.Algebra.Order.Group.Nat

/-!
# Counters of 64 bits

A counter to which the amounts of items are added, and from which they are taken again. The items
that are still counted bound it from below, and a limit from above, so that neither operation
wraps around.

* `Tally`: the counter is between what the items need and the limit;
* `Tally.add` and `Tally.sub` keep it, and `Tally.subperm`: items may be forgotten.
-/

namespace OpenDsn.Lib

open List

/-- What the items need is counted, and the counter is at most the limit. -/
structure Tally {α : Type} (amount : α → UInt64) (limit : Nat) (counter : UInt64)
    (items : List α) : Prop where
  counted : (items.map fun x => (amount x).toNat).sum ≤ counter.toNat
  limited : counter.toNat ≤ limit

theorem toNat_add_of_lt {x y : UInt64} (h : x.toNat + y.toNat < 2 ^ 64) :
    (x + y).toNat = x.toNat + y.toNat := by
  rw [UInt64.toNat_add, Nat.mod_eq_of_lt h]

namespace Tally

variable {α : Type} {amount : α → UInt64} {limit : Nat} {counter : UInt64} {x : α}
  {items items' : List α}

theorem zero : Tally amount limit 0 [] := ⟨Nat.le_refl 0, Nat.zero_le limit⟩

theorem subperm (h : Tally amount limit counter items) (hitems : items'.Subperm items) :
    Tally amount limit counter items' := by
  obtain ⟨middle, hperm, hsub⟩ := hitems
  refine ⟨?_, h.limited⟩
  calc (items'.map fun x => (amount x).toNat).sum
      = (middle.map fun x => (amount x).toNat).sum := ((hperm.map _).sum_eq).symm
    _ ≤ (items.map fun x => (amount x).toNat).sum :=
        (hsub.map _).sum_le_sum fun _ _ => Nat.zero_le _
    _ ≤ counter.toNat := h.counted

/-- The amount of an item can be taken without a wrap around. -/
theorem amount_le (h : Tally amount limit counter (x :: items)) : amount x ≤ counter := by
  have hcounted := h.counted
  rw [map_cons, sum_cons] at hcounted
  rw [UInt64.le_iff_toNat_le]
  omega

theorem add (h : Tally amount limit counter items) (hlimit : limit < 2 ^ 64)
    (hfits : counter.toNat + (amount x).toNat ≤ limit) :
    Tally amount limit (counter + amount x) (x :: items) := by
  have hsum := toNat_add_of_lt (hfits.trans_lt hlimit)
  constructor
  · have hcounted := h.counted
    rw [map_cons, sum_cons, hsum]
    omega
  · rw [hsum]
    exact hfits

theorem toNat_sub (h : Tally amount limit counter (x :: items)) :
    (counter - amount x).toNat = counter.toNat - (amount x).toNat :=
  UInt64.toNat_sub_of_le counter (amount x) h.amount_le

theorem sub (h : Tally amount limit counter (x :: items)) :
    Tally amount limit (counter - amount x) items := by
  constructor
  · have hcounted := h.counted
    rw [map_cons, sum_cons] at hcounted
    rw [h.toNat_sub]
    omega
  · rw [h.toNat_sub]
    exact (Nat.sub_le _ _).trans h.limited

end Tally

end OpenDsn.Lib
