import Mathlib.Data.Nat.Nth
import Mathlib.Data.Set.Card
import OpenDsn.Lib.RunLength

/-!
# The first members of a set of runs

* `firstGap`: the least number that is not in the set;
* `least_count`: the numbers with few members of an infinite set below them are its least ones;
* `least_gaps`: a slice of a long enough interval without a set has the least numbers that are
  not in the set.
-/

namespace OpenDsn.Lib

open Option

/-- `R` has the `n` least numbers of `S`. -/
structure Least (n : Nat) (S R : Set Nat) : Prop where
  subset : R ⊆ S
  encard : R.encard = n
  below : ∀ x ∈ R, ∀ y ∈ S, y ∉ R → x < y

theorem least_count {p : Nat → Prop} [DecidablePred p] (h : {x | p x}.Infinite) (n : Nat) :
    Least n {x | p x} {x | p x ∧ Nat.count p x < n} where
  subset _ hx := hx.1
  encard := by
    have himage : {x | p x ∧ Nat.count p x < n} = Nat.nth p '' Set.Iio n := by
      ext x
      constructor
      · rintro ⟨hp, hlt⟩
        exact ⟨Nat.count p x, hlt, Nat.nth_count hp⟩
      · rintro ⟨k, hk, rfl⟩
        refine ⟨Nat.nth_mem_of_infinite h k, ?_⟩
        rw [Nat.count_nth_of_infinite h]
        exact hk
    rw [himage, (Nat.nth_injective h).encard_image, ← Finset.coe_range,
      Set.encard_coe_eq_coe_finsetCard, Finset.card_range]
  below x hx y hy hout := by
    have hle : n ≤ Nat.count p y := Nat.le_of_not_lt fun hlt => hout ⟨hy, hlt⟩
    exact Nat.lt_of_not_le fun hyx =>
      absurd (Nat.count_monotone p hyx) (not_le.mpr (hx.2.trans_le hle))

namespace Runs

variable {runs out : List Run} {n x : Nat}

/-- The length of the runs of members that the set starts with. -/
def firstGap : List Run → Nat
  | [] => 0
  | r :: runs => if r.val then r.len + firstGap runs else 0

theorem covers_of_lt_firstGap (h : x < firstGap runs) : covers runs x = true := by
  induction runs generalizing x with
  | nil => cases h
  | cons r runs ih =>
    unfold firstGap at h
    split at h
    · next hval =>
      rcases lt_or_add r.len x with hlt | ⟨y, rfl⟩
      · rw [covers_cons_lt hlt, hval]
      · rw [covers_cons_add]
        exact ih (Nat.lt_of_add_lt_add_left h)
    · cases h

theorem covers_firstGap (h : Alternating runs) : covers runs (firstGap runs) = false := by
  induction runs with
  | nil => rfl
  | cons r runs ih =>
    unfold firstGap
    split
    · rw [covers_cons_add]
      exact ih h.tail
    · next hval =>
      rw [covers_cons_lt (h.pos r List.mem_cons_self)]
      exact Bool.eq_false_iff.mpr hval

theorem infinite_gaps : {x | covers runs x = false}.Infinite := by
  refine Set.infinite_of_not_bddAbove ?_
  rintro ⟨b, hb⟩
  have hgap : covers runs (max (total runs) (b + 1)) = false := by
    refine Bool.eq_false_iff.mpr fun h => ?_
    exact absurd (lt_total_of_covers h) (not_lt.mpr (le_max_left _ _))
  exact absurd (hb hgap) (not_le.mpr (Nat.lt_of_succ_le (le_max_right _ _)))

theorem count_gaps_add (runs : List Run) (n : Nat) :
    Nat.count (covers runs · = false) n + Nat.count (covers runs · = true) n = n := by
  induction n with
  | zero => rfl
  | succ n _ =>
    rw [Nat.count_succ, Nat.count_succ]
    cases covers runs n <;> simp <;> omega

/-! ## Counting and slices -/

variable [BitFields]

theorem ncard_covers (runs : List Run) : {x | covers runs x = true}.ncard = count runs := by
  have hset : {x | covers runs x = true} = (memberSet runs : Set Nat) :=
    Set.ext fun _ => mem_memberSet.symm
  rw [hset, Set.ncard_coe_finset, count_eq]

/-- There are as many gaps as asked for below that number and the number of members. -/
theorem lt_of_count_gaps_lt (h : Nat.count (covers runs · = false) x < n) : x < n + count runs := by
  have hsum := count_gaps_add runs x
  have hle : Nat.count (covers runs · = true) x ≤ count runs := by
    rw [Nat.count_eq_card_filter_range, count_eq]
    exact Finset.card_le_card fun y hy => mem_memberSet.mpr (Finset.mem_filter.mp hy).2
  omega

theorem covers_interval_diff :
    covers (diff [⟨true, n⟩] runs) x = (decide (x < n) && !covers runs x) := by
  simp [covers_diff, covers]

/-- The first gaps of a set, as a slice of an interval without the set. -/
theorem least_gaps (h : slice (diff [⟨true, n + count runs⟩] runs) n = some out) :
    Least n {x | covers runs x = false} {x | covers out x = true} := by
  have hset : {x | covers out x = true} =
      {x | covers runs x = false ∧ Nat.count (covers runs · = false) x < n} := by
    ext x
    show covers out x = true ↔ _ ∧ _
    rw [covers_slice _ _ _ h, covers_interval_diff, Bool.and_eq_true_iff, Bool.and_eq_true_iff,
      decide_eq_true_iff, decide_eq_true_iff, Bool.not_eq_true']
    have hcount : x ≤ n + count runs →
        Nat.count (covers (diff [⟨true, n + count runs⟩] runs) · = true) x =
          Nat.count (covers runs · = false) x := by
      intro hx
      refine le_antisymm (Nat.count_mono_left fun k hk hc => ?_)
        (Nat.count_mono_left fun k hk hc => ?_)
      · rw [covers_interval_diff] at hc
        simpa using (Bool.and_eq_true_iff.mp hc).2
      · rw [covers_interval_diff, hc, decide_eq_true (hk.trans_le hx)]
        rfl
    constructor
    · rintro ⟨⟨hlt, hgap⟩, hfew⟩
      exact ⟨hgap, hcount (le_of_lt hlt) ▸ hfew⟩
    · rintro ⟨hgap, hfew⟩
      have hlt := lt_of_count_gaps_lt hfew
      exact ⟨⟨hlt, hgap⟩, (hcount (le_of_lt hlt)).symm ▸ hfew⟩
  rw [hset]
  exact least_count (infinite_gaps) n

end Runs

end OpenDsn.Lib
