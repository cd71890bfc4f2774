import Mathlib.Data.Int.Log
import Mathlib.Data.Nat.Digits.Defs
import Mathlib.Data.Rat.Floor
import Mathlib.Tactic.Positivity
import OpenDsn.Lib.Text

/-!
# Numerals

Zero-padded integers as the Go package `time` writes them, and numbers of the
type `float64` with three decimals as `strconv.FormatFloat(x, 'f', 3, 64)`
does.

* `mem_padInt`, `mem_fixed3`: a numeral has digits, a minus sign and a point
  only;
* `length_padInt_le`, `length_fixed3_le`: a numeral is as long as its number
  makes it;
* `abs_float64_le`: rounding to a `float64` at most doubles a number.
-/

namespace OpenDsn.Lib.Text

variable {c : Char}

open List

/-- `n` with zeros before it, at least `width` digits. -/
def padNat (width n : Nat) : Text :=
  List.replicate (width - (Nat.toDigits 10 n).length) '0' ++ Nat.toDigits 10 n

/-- `appendInt` of the package `time`. -/
def padInt (width : Nat) (i : Int) : Text :=
  if i < 0 then '-' :: padNat width i.natAbs else padNat width i.natAbs

/-- The nearest integer, ties to even. -/
def roundEven (q : ℚ) : Int :=
  let r := q - q.floor
  if r < 1 / 2 ∨ r = 1 / 2 ∧ q.floor % 2 = 0 then q.floor else q.floor + 1

/-- The nearest number with a significand of 53 bits. -/
def float64 (q : ℚ) : ℚ :=
  if q = 0 then 0
  else
    let unit : ℚ := 2 ^ (Int.log 2 |q| - 52)
    roundEven (q / unit) * unit

/-- `strconv.FormatFloat(q, 'f', 3, 64)`. -/
def fixed3 (q : ℚ) : Text :=
  let m := (roundEven (|q| * 1000)).toNat
  (if q < 0 then ['-'] else []) ++ Nat.toDigits 10 (m / 1000) ++ '.' :: padNat 3 (m % 1000)

/-! ## The characters of a numeral -/

theorem mem_padNat {width n : Nat} (h : c ∈ padNat width n) : c.isDigit = true := by
  rcases mem_append.mp h with h | h
  · rw [eq_of_mem_replicate h]; decide
  · exact isDigit_of_mem_toDigits h

theorem mem_padInt {width : Nat} {i : Int} (h : c ∈ padInt width i) :
    c.isDigit = true ∨ c = '-' := by
  unfold padInt at h
  split at h
  · rcases mem_cons.mp h with h | h
    · exact .inr h
    · exact .inl (mem_padNat h)
  · exact .inl (mem_padNat h)

theorem mem_fixed3 {q : ℚ} (h : c ∈ fixed3 q) :
    c.isDigit = true ∨ c = '-' ∨ c = '.' := by
  rcases mem_append.mp h with h | h
  · rcases mem_append.mp h with h | h
    · split at h
      · exact .inr (.inl (mem_singleton.mp h))
      · cases h
    · exact .inl (isDigit_of_mem_toDigits h)
  · rcases mem_cons.mp h with h | h
    · exact .inr (.inr h)
    · exact .inl (mem_padNat h)

/-! ## The length of a numeral -/

theorem length_padNat_le (width n e : Nat) (he : 0 < e) (hn : n < 10 ^ e) :
    (padNat width n).length ≤ width + e := by
  have hd := Nat.toDigits_length 10 n e he hn
  unfold padNat
  rw [length_append, length_replicate]
  omega

theorem length_padInt_le (width e : Nat) (i : Int) (he : 0 < e) (hi : i.natAbs < 10 ^ e) :
    (padInt width i).length ≤ width + e + 1 := by
  have hd := length_padNat_le width _ e he hi
  unfold padInt
  split
  · rw [length_cons]; omega
  · omega

theorem abs_roundEven_le (q : ℚ) : |(roundEven q : ℚ)| ≤ |q| + 1 := by
  have hfloor : (q.floor : ℚ) ≤ q := Rat.le_floor_iff.mp le_rfl
  have hceil : q < q.floor + 1 := by exact_mod_cast Rat.lt_floor_add_one q
  have hround : q - 1 ≤ roundEven q ∧ (roundEven q : ℚ) ≤ q + 1 := by
    unfold roundEven
    dsimp only
    split
    · exact ⟨by linarith, by linarith⟩
    · push_cast
      exact ⟨by linarith, by linarith⟩
  have habs := neg_abs_le q
  have habs' := le_abs_self q
  exact abs_le.mpr ⟨by linarith, by linarith⟩

theorem abs_float64_le (q : ℚ) : |float64 q| ≤ 2 * |q| := by
  unfold float64
  split
  · rw [abs_zero]; positivity
  · next hne =>
    have hunit : (2 : ℚ) ^ (Int.log 2 |q| - 52) ≤ |q| := by
      have hlog : ((2 : Nat) : ℚ) ^ Int.log 2 |q| ≤ |q| :=
        Int.zpow_log_le_self (by decide) (abs_pos.mpr hne)
      have hmono : (2 : ℚ) ^ (Int.log 2 |q| - 52) ≤ (2 : ℚ) ^ Int.log 2 |q| :=
        zpow_le_zpow_right₀ (by norm_num) (by omega)
      exact hmono.trans (by simpa using hlog)
    have hupos : (0 : ℚ) < 2 ^ (Int.log 2 |q| - 52) := zpow_pos (by norm_num) _
    generalize (2 : ℚ) ^ (Int.log 2 |q| - 52) = unit at hunit hupos
    calc |(roundEven (q / unit) : ℚ) * unit|
        = |(roundEven (q / unit) : ℚ)| * unit := by rw [abs_mul, abs_of_pos hupos]
      _ ≤ (|q / unit| + 1) * unit := mul_le_mul_of_nonneg_right (abs_roundEven_le _) hupos.le
      _ = |q| + unit := by rw [abs_div, abs_of_pos hupos]; field_simp
      _ ≤ 2 * |q| := by linarith

theorem length_fixed3_le {q : ℚ} (e : Nat) (he : 0 < e) (hq : |q| * 1000 + 1 < 10 ^ e) :
    (fixed3 q).length ≤ 2 * e + 5 := by
  have hm : (roundEven (|q| * 1000)).toNat < 10 ^ e := by
    have hround := (le_abs_self _).trans (abs_roundEven_le (|q| * 1000))
    rw [abs_of_nonneg (by positivity : 0 ≤ |q| * 1000)] at hround
    have hlt : (roundEven (|q| * 1000) : ℚ) < 10 ^ e := hround.trans_lt hq
    have hint : roundEven (|q| * 1000) < (10 ^ e : Int) := by exact_mod_cast hlt
    have hcast : ((10 ^ e : Nat) : Int) = 10 ^ e := by push_cast; rfl
    have hpos : 0 < 10 ^ e := Nat.pow_pos (by decide)
    omega
  unfold fixed3
  generalize (roundEven (|q| * 1000)).toNat = m at hm
  have hint := Nat.toDigits_length 10 (m / 1000) e he (by omega)
  have hfrac := length_padNat_le 3 (m % 1000) e he (by omega)
  have hsign : (if q < 0 then ['-'] else []).length ≤ 1 := by split <;> decide
  simp only [length_append, length_cons]
  omega

end OpenDsn.Lib.Text
