import Mathlib.Data.BitVec

/-!
# Sector file types

`storage/sealer/storiface/filetype.go`: the files of a sector, and sets of file types as the
bits of an integer.
-/

namespace OpenDsn.Paths

structure SectorID where
  miner : Nat
  number : Nat
deriving DecidableEq

/-- `FileTypes`, the number of file types. -/
abbrev fileTypes : Nat := 5

abbrev SectorFileType := BitVec 64

/-- The file type of a bit. -/
def fileType (i : Fin fileTypes) : SectorFileType := 1#64 <<< i.val

def ftNone : SectorFileType := 0#64
def ftUnsealed : SectorFileType := fileType 0
def ftSealed : SectorFileType := fileType 1
def ftCache : SectorFileType := fileType 2
def ftUpdate : SectorFileType := fileType 3
def ftUpdateCache : SectorFileType := fileType 4

/-- `All`. -/
def SectorFileType.all (t : SectorFileType) (i : Fin fileTypes) : Bool := t &&& fileType i ≠ 0#64

theorem getLsbD_fileType (i : Fin fileTypes) (j : Nat) :
    (fileType i).getLsbD j = decide (j = i.val) := by
  unfold fileType
  have hi : i.val < 64 := lt_trans i.isLt (by decide)
  by_cases hj : j = i.val
  · subst hj
    simp [hi]
  · simp [hj]
    omega

theorem and_eq_zero_iff (s t : SectorFileType) :
    s &&& t = 0#64 ↔ ∀ j, ¬(s.getLsbD j = true ∧ t.getLsbD j = true) := by
  constructor
  · intro h j hj
    have hbit : (s &&& t).getLsbD j = true := by
      rw [BitVec.getLsbD_and, hj.1, hj.2]
      rfl
    rw [h] at hbit
    simp at hbit
  · intro h
    refine BitVec.eq_of_getLsbD_eq fun j _ => ?_
    rw [BitVec.getLsbD_and, BitVec.getLsbD_zero, Bool.and_eq_false_iff]
    by_contra hne
    simp only [not_or, Bool.not_eq_false] at hne
    exact h j hne

theorem SectorFileType.all_eq (t : SectorFileType) (i : Fin fileTypes) :
    t.all i = t.getLsbD i.val := by
  unfold SectorFileType.all
  rw [Bool.eq_iff_iff, decide_eq_true_eq, ne_eq, and_eq_zero_iff]
  simp [getLsbD_fileType]

end OpenDsn.Paths
