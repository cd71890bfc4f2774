import Mathlib.Algebra.Order.Ring.Nat
import Mathlib.Data.List.Basic

/-!
# Placing at aligned offsets

An item of size `s` is placed at the next multiple of `s`.

* `alignUp_le`: that is the least multiple at or above the offset;
* `alignUp_eq_add`: the gap before it, read off any multiple of `s` above the offset;
* `extent`: where a row of items ends, which is monotone in where it starts;
* `Aligned`: items without gaps, each of them aligned.
-/

namespace OpenDsn.Lib

/-- The next multiple of `s`. -/
def alignUp (o s : Nat) : Nat := (o + s - 1) / s * s

/-- The end of a row of items of the given sizes that starts at `o`. -/
def extent (o : Nat) (sizes : List Nat) : Nat := sizes.foldl (fun o s => alignUp o s + s) o

/-- Items side by side from `o` on, each at a multiple of its size. -/
def Aligned : Nat → List Nat → Prop
  | _, [] => True
  | o, s :: sizes => s ∣ o ∧ Aligned (o + s) sizes

variable {o o' s q : Nat}

theorem dvd_alignUp (o s : Nat) : s ∣ alignUp o s := Nat.dvd_mul_left s _

theorem le_alignUp (hs : 0 < s) : o ≤ alignUp o s := by
  have hlt := Nat.lt_div_mul_add hs (a := o + s - 1)
  unfold alignUp
  omega

theorem alignUp_le (hs : 0 < s) (h : o ≤ q) (hq : s ∣ q) : alignUp o s ≤ q := by
  obtain ⟨k, rfl⟩ := hq
  have hdiv : (o + s - 1) / s ≤ k := by
    rw [← Nat.lt_succ_iff, Nat.div_lt_iff_lt_mul hs, Nat.succ_mul, mul_comm k s]
    omega
  calc
    alignUp o s ≤ k * s := Nat.mul_le_mul_right s hdiv
    _ = s * k := mul_comm k s

theorem alignUp_mono (hs : 0 < s) (h : o ≤ o') : alignUp o s ≤ alignUp o' s :=
  alignUp_le hs (h.trans (le_alignUp hs)) (dvd_alignUp o' s)

/-- The gap is what is over from a multiple of the size. -/
theorem alignUp_eq_add (hs : 0 < s) (h : o ≤ q) (hq : s ∣ q) : alignUp o s = o + (q - o) % s := by
  have hrem : (q - o) % s < s := Nat.mod_lt _ hs
  have hsum : o + (q - o) % s + s * ((q - o) / s) = q := by
    have hdiv := Nat.mod_add_div (q - o) s
    omega
  have hdvd : s ∣ o + (q - o) % s :=
    (Nat.dvd_add_iff_left (Nat.dvd_mul_right s _)).mpr (by rwa [hsum])
  refine le_antisymm (alignUp_le hs (Nat.le_add_right _ _) hdvd) ?_
  -- two multiples less than `s` apart
  by_contra hlt
  have hgap : s ∣ o + (q - o) % s - alignUp o s := Nat.dvd_sub hdvd (dvd_alignUp o s)
  have hle := Nat.le_of_dvd (by omega) hgap
  have hge := le_alignUp (o := o) hs
  omega

theorem alignUp_mul {c : Nat} (hc : 0 < c) (hs : 0 < s) :
    alignUp (c * o) (c * s) = c * alignUp o s := by
  have hcs : 0 < c * s := Nat.mul_pos hc hs
  refine le_antisymm (alignUp_le hcs (Nat.mul_le_mul_left c (le_alignUp hs))
    (Nat.mul_dvd_mul_left c (dvd_alignUp o s))) ?_
  obtain ⟨k, hk⟩ := dvd_alignUp (c * o) (c * s)
  rw [hk, mul_assoc]
  refine Nat.mul_le_mul_left c (alignUp_le hs ?_ (Nat.dvd_mul_right s k))
  refine Nat.le_of_mul_le_mul_left ?_ hc
  rw [← mul_assoc, ← hk]
  exact le_alignUp hcs

theorem extent_append (o : Nat) (sizes sizes' : List Nat) :
    extent o (sizes ++ sizes') = extent (extent o sizes) sizes' := List.foldl_append

theorem le_extent {sizes : List Nat} (hpos : ∀ s ∈ sizes, 0 < s) : o ≤ extent o sizes := by
  induction sizes generalizing o with
  | nil => exact le_refl o
  | cons s sizes ih =>
    obtain ⟨hs, hpos⟩ := List.forall_mem_cons.mp hpos
    calc
      o ≤ alignUp o s + s := Nat.le_add_right_of_le (le_alignUp hs)
      _ ≤ extent (alignUp o s + s) sizes := ih hpos

theorem extent_mono {sizes : List Nat} (hpos : ∀ s ∈ sizes, 0 < s) (h : o ≤ o') :
    extent o sizes ≤ extent o' sizes := by
  induction sizes generalizing o o' with
  | nil => exact h
  | cons s sizes ih =>
    obtain ⟨hs, hpos⟩ := List.forall_mem_cons.mp hpos
    exact ih hpos (Nat.add_le_add_right (alignUp_mono hs h) s)

theorem aligned_append (o : Nat) (sizes sizes' : List Nat) :
    Aligned o (sizes ++ sizes') ↔ Aligned o sizes ∧ Aligned (o + sizes.sum) sizes' := by
  induction sizes generalizing o with
  | nil => simp [Aligned]
  | cons s sizes ih => simp [Aligned, ih, and_assoc, add_assoc]

end OpenDsn.Lib
