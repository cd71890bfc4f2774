import OpenDsn.Pipeline.Input

/-!
# The pieces of an unsealed sector

`storage/sealer/ffiwrapper/sealer_cgo.go`: `GenerateUnsealedCID` hands the pieces of a sector to the
proofs library with padding before each of them and up to the end of the sector. `fillersFromRem`
(`storage/pipeline/utils.go`) gives the pieces that fill up a sector.

* `allPieces_fill`: pieces that fit in their order stand there in it, each behind the least padding
  that aligns it, and all entries are aligned and fill the sector;
* `fillersFromRem_fill`: the fillers are aligned and fill the sector.
-/

namespace OpenDsn.Pipeline

open Lib Sealer List

/-- `abi.PieceInfo`. -/
structure PieceInfo (Cid : Type) where
  size : Nat
  pieceCid : Cid

section

variable [PieceSizes] {Cid : Type} (zero : Nat → Cid)

/-- `padTo`; `zero` is `ZeroPieceCommitment`. -/
def padTo (pads : List Nat) : List (PieceInfo Cid) := pads.map fun p => ⟨p, zero (unpadded p)⟩

/-- The loop over the pieces from `sum` on, and the padding behind them. -/
def fillFrom (pssize : Nat) : Nat → List (PieceInfo Cid) → List (PieceInfo Cid)
  | sum, [] => padTo zero (getRequiredPadding sum pssize).1
  | sum, p :: pieces =>
      let ps := (getRequiredPadding sum p.size).1
      padTo zero ps ++ p :: fillFrom pssize ((sum + ps.sum + p.size) % 2 ^ 64) pieces

/-- What `GenerateUnsealedCID` hands on for a sector of `pssize`. -/
def allPieces (pssize : Nat) (pieces : List (PieceInfo Cid)) : List (PieceInfo Cid) :=
  if pieces.length = 0 then [⟨pssize, zero (unpadded pssize)⟩] else fillFrom zero pssize 0 pieces

/-- From `o` on, the entries are the pieces in their order, each behind the least padding that
aligns it, and then padding. -/
def Places : Nat → List (PieceInfo Cid) → List (PieceInfo Cid) → Prop
  | _, [], all => ∃ pads, all = padTo zero pads
  | o, p :: pieces, all => ∃ pads rest, all = padTo zero pads ++ p :: rest ∧
      IsLeast {d | p.size ∣ o + d} pads.sum ∧ Places (o + pads.sum + p.size) pieces rest

/-- The entries fill the space from `o` to `n`, each at a multiple of its size. -/
structure Fills (o n : Nat) (all : List (PieceInfo Cid)) : Prop where
  powers : ∀ p ∈ all, ∃ m, 7 ≤ m ∧ p.size = 2 ^ m
  aligned : Aligned o (all.map PieceInfo.size)
  total : o + (all.map PieceInfo.size).sum = n

namespace UnsealedCidLemmas

open InputLemmas

/-- The set bits of what is missing to a multiple of `2 ^ m` are aligned from the lowest on. -/
theorem aligned_bits {o t m : Nat} (ht : t ≤ 2 ^ m) (hdvd : 2 ^ m ∣ o + t) (k : Nat) :
    Aligned o (((List.range k).filter t.testBit).map (2 ^ ·)) := by
  induction k with
  | zero => trivial
  | succ k ih =>
    rw [range_succ, filter_append, map_append, aligned_append, sum_bits]
    refine ⟨ih, ?_⟩
    cases hk : t.testBit k with
    | false => simp [hk, Aligned]
    | true =>
      have hkm : k ≤ m := by
        by_contra hlt
        have hpow := Nat.pow_lt_pow_right (a := 2) (by decide) (Nat.lt_of_not_le hlt)
        rw [Nat.testBit_lt_two_pow (by omega)] at hk
        cases hk
      -- the bits from `k` on are a multiple of `2 ^ k`
      have hlow := (Nat.pow_dvd_pow 2 hkm).trans hdvd
      rw [← Nat.mod_add_div t (2 ^ k), ← add_assoc] at hlow
      simpa [hk, Aligned] using (Nat.dvd_add_left (Nat.dvd_mul_right _ _)).mp hlow

variable {o n n' m e : Nat} {xs ys pieces : List (PieceInfo Cid)}

omit [PieceSizes] in
theorem fills_append (hx : Fills o n xs) (hy : Fills n n' ys) : Fills o n' (xs ++ ys) where
  powers := forall_mem_append.mpr ⟨hx.powers, hy.powers⟩
  aligned := by
    rw [map_append, aligned_append, hx.total]
    exact ⟨hx.aligned, hy.aligned⟩
  total := by rw [map_append, sum_append, ← add_assoc, hx.total, hy.total]

theorem sizes_padTo (pads : List Nat) : (padTo zero pads).map PieceInfo.size = pads := by
  rw [padTo, map_map]
  exact map_id _

/-- The padding up to the next multiple of `2 ^ m`. -/
theorem fills_padTo (ho : o < 2 ^ 64) (ho7 : 128 ∣ o) (hm : 7 ≤ m) (hm64 : m ≤ 64) :
    Fills o (alignUp o (2 ^ m)) (padTo zero (getRequiredPadding o (2 ^ m)).1) := by
  have hs := Nat.pow_dvd_pow 2 hm64
  refine ⟨forall_mem_map.mpr fun p => exists_of_mem_pads ho hs ho7 (Nat.pow_dvd_pow 2 hm),
    ?_, ?_⟩
  · rw [sizes_padTo, getRequiredPadding_pads]
    refine aligned_bits (Nat.mod_lt _ (Nat.two_pow_pos m)).le ?_ 64
    rw [toFill_eq ho hs]
    exact dvd_alignUp o _
  · rw [sizes_padTo]
    exact getRequiredPadding_sum ho hs

/-- The loop, and the padding behind it. -/
theorem fillFrom_spec (he : 7 ≤ e) (he64 : e < 64)
    (hsizes : ∀ p ∈ pieces, ∃ m, 7 ≤ m ∧ p.size = 2 ^ m) (ho7 : 128 ∣ o)
    (hfirst : pieces = [] → o ≠ 0) (hfits : extent o (pieces.map PieceInfo.size) ≤ 2 ^ e) :
    Places zero o pieces (fillFrom zero (2 ^ e) o pieces) ∧
      Fills o (2 ^ e) (fillFrom zero (2 ^ e) o pieces) := by
  have hpow : 2 ^ e < 2 ^ 64 := Nat.pow_lt_pow_right one_lt_two he64
  induction pieces generalizing o with
  | nil =>
    have hpads := fills_padTo zero (hfits.trans_lt hpow) ho7 he (le_of_lt he64)
    -- the end of the sector is the next multiple of its size, as something is in it
    have hupper := alignUp_le (Nat.two_pow_pos e) hfits (Nat.dvd_refl _)
    have hne := hfirst rfl
    have hup := le_alignUp (o := o) (Nat.two_pow_pos e)
    have hlower := Nat.le_of_dvd (by omega) (dvd_alignUp o (2 ^ e))
    rw [le_antisymm hupper hlower] at hpads
    exact ⟨⟨_, rfl⟩, hpads⟩
  | cons p pieces ih =>
    obtain ⟨⟨m, hm, hp⟩, hrest⟩ := forall_mem_cons.mp hsizes
    have hpos : ∀ s ∈ pieces.map PieceInfo.size, 0 < s := forall_mem_map.mpr fun q hq => by
      obtain ⟨k, -, hk⟩ := hrest q hq
      exact hk ▸ Nat.two_pow_pos k
    replace hfits : extent (alignUp o p.size + p.size) (pieces.map PieceInfo.size) ≤ 2 ^ e := hfits
    rw [hp] at hfits
    have hle := le_trans (le_extent hpos) hfits
    have hmpos := Nat.two_pow_pos m
    have hup := le_alignUp (o := o) hmpos
    have hm64 : m ≤ 64 := by
      refine le_of_lt ((Nat.pow_lt_pow_iff_right one_lt_two).mp (?_ : 2 ^ m < 2 ^ 64))
      omega
    have ho : o < 2 ^ 64 := by omega
    have hsum : o + (getRequiredPadding o (2 ^ m)).1.sum = alignUp o (2 ^ m) :=
      getRequiredPadding_sum ho (Nat.pow_dvd_pow 2 hm64)
    have hend : 128 ∣ alignUp o (2 ^ m) + 2 ^ m :=
      (Nat.pow_dvd_pow 2 hm).trans (Nat.dvd_add (dvd_alignUp o _) (Nat.dvd_refl _))
    obtain ⟨hplaces, hfills⟩ := ih hrest hend (fun _ => by omega) hfits
    rw [fillFrom, hp, hsum, Nat.mod_eq_of_lt (by omega)]
    refine ⟨⟨_, _, rfl, ⟨?_, fun d hd => ?_⟩, ?_⟩,
      fills_append (fills_padTo zero ho ho7 hm hm64) ⟨?_, ⟨?_, ?_⟩, ?_⟩⟩
    · show p.size ∣ _
      rw [hsum, hp]
      exact dvd_alignUp o _
    · have hleast := alignUp_le hmpos (Nat.le_add_right o d) (hp ▸ hd)
      omega
    · rw [hsum, hp]
      exact hplaces
    · exact forall_mem_cons.mpr ⟨⟨m, hm, hp⟩, hfills.powers⟩
    · exact hp ▸ dvd_alignUp o _
    · rw [hp]
      exact hfills.aligned
    · rw [map_cons, sum_cons, ← add_assoc, hp]
      exact hfills.total

end UnsealedCidLemmas

open UnsealedCidLemmas in
/-- Pieces of powers of two from 128 bytes on, which fit into the sector if each is put at the next
multiple of its size, are in the list so, and the list fills the sector. -/
theorem allPieces_fill {e : Nat} (he : 7 ≤ e) (he64 : e < 64) {pieces : List (PieceInfo Cid)}
    (hsizes : ∀ p ∈ pieces, ∃ m, 7 ≤ m ∧ p.size = 2 ^ m)
    (hfits : extent 0 (pieces.map PieceInfo.size) ≤ 2 ^ e) :
    Places zero 0 pieces (allPieces zero (2 ^ e) pieces) ∧
      Fills 0 (2 ^ e) (allPieces zero (2 ^ e) pieces) := by
  unfold allPieces
  split
  · next hnil =>
    rw [length_eq_zero_iff.mp hnil]
    refine ⟨⟨[2 ^ e], rfl⟩, ?_, ⟨Nat.dvd_zero _, trivial⟩, by simp⟩
    exact forall_mem_singleton.mpr ⟨e, he, rfl⟩
  · next hne =>
    exact fillFrom_spec zero he he64 hsizes (Nat.dvd_zero _)
      (fun hnil => absurd (length_eq_zero_iff.mpr hnil) hne) hfits

end

/-- Pieces of 128 and 512 bytes in a sector of 2 KiB. -/
theorem allPieces_fill_two :
    (allPieces id (2 ^ 11) [⟨128, 7⟩, ⟨512, 9⟩]).map PieceInfo.size = [128, 128, 256, 512, 1024] ∧
      Fills 0 (2 ^ 11) (allPieces id (2 ^ 11) [⟨128, 7⟩, ⟨512, 9⟩]) := by
  refine ⟨by decide, (allPieces_fill id (by decide) (by decide) ?_ (by decide)).2⟩
  simp only [forall_mem_cons]
  exact ⟨⟨7, by decide, rfl⟩, ⟨9, by decide, rfl⟩, forall_mem_nil _⟩

/-! ## Fillers -/

section

variable [PieceSizes]

def fillersFromRem (rem : Nat) : List Nat :=
  let toFill := (rem + rem / 127) % 2 ^ 64
  (fillersLoop (setBits toFill).length toFill).map unpadded

namespace UnsealedCidLemmas

open InputLemmas

theorem padded_unpadded_two_pow (i : Nat) : padded (unpadded (2 ^ i)) = 2 ^ i := by
  rcases le_or_gt 7 i with hi | hi
  · obtain ⟨k, rfl⟩ := Nat.exists_eq_add_of_le hi
    rw [pow_add, show 2 ^ 7 = 128 from rfl, unpadded_mul, padded_mul]
  · rw [unpadded_eq, padded_eq]
    exact (by decide : ∀ i < 7, 2 ^ i - 2 ^ i / 128 + (2 ^ i - 2 ^ i / 128) / 127 = 2 ^ i) i hi

/-- What is left of the sector, in bytes of the sector. -/
theorem padded_rem {n used : Nat} (hdvd : 127 ∣ used) (hle : used ≤ unpadded (2 ^ n)) :
    padded used + padded (unpadded (2 ^ n) - used) = 2 ^ n := by
  obtain ⟨a, rfl⟩ := hdvd
  have hsector := padded_unpadded_two_pow n
  simp only [padded_eq] at hsector ⊢
  omega

end UnsealedCidLemmas

open UnsealedCidLemmas InputLemmas in
/-- The fillers have powers of two of padded bytes and fill up the sector behind the used part,
each at a multiple of its size. -/
theorem fillersFromRem_fill {n used : Nat} (hn : n < 64) (hdvd : 127 ∣ used)
    (hle : used ≤ unpadded (2 ^ n)) :
    let sizes := (fillersFromRem (unpadded (2 ^ n) - used)).map padded
    (∀ s ∈ sizes, ∃ m, s = 2 ^ m) ∧ padded used + sizes.sum = 2 ^ n ∧
      Aligned (padded used) sizes := by
  have hrem := padded_rem hdvd hle
  have hlt := Nat.pow_lt_pow_right (a := 2) (by decide) hn
  have hsizes : (fillersFromRem (unpadded (2 ^ n) - used)).map padded =
      (setBits (padded (unpadded (2 ^ n) - used))).map (2 ^ ·) := by
    unfold fillersFromRem
    rw [← padded_eq, Nat.mod_eq_of_lt (by omega)]
    dsimp only
    rw [fillersLoop_eq, map_map, map_map]
    exact map_congr_left fun i _ => padded_unpadded_two_pow i
  rw [hsizes]
  refine ⟨forall_mem_map.mpr fun i _ => ⟨i, rfl⟩, ?_, ?_⟩
  · rw [setBits, sum_bits, Nat.mod_eq_of_lt (by omega), hrem]
  · exact aligned_bits (by omega) (Dvd.intro 1 (by omega) : 2 ^ n ∣ _) 64

end

/-- A sector of 2 KiB with 254 bytes in it. -/
theorem fillersFromRem_fill_behind_254 :
    fillersFromRem (unpadded (2 ^ 11) - 254) = [254, 508, 1016] ∧
    Aligned 256 ((fillersFromRem (unpadded (2 ^ 11) - 254)).map padded) :=
  ⟨by decide, (@fillersFromRem_fill _ 11 254 (by decide) (by decide) (by decide)).2.2⟩

end OpenDsn.Pipeline
