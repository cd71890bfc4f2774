import Mathlib.Order.Interval.Finset.Nat
import OpenDsn.Lib.File
import OpenDsn.Lib.RunLength

/-!
# Partly unsealed sectors

`storage/sealer/partialfile/partialfile.go`: an unsealed sector file has the padded data of
the sector, then the runs of bytes that are unsealed, and the length of these runs in four
bytes. An open handle has a copy of the runs. The operations of the RLE+ library are any
`BitFields`, and what it encodes it decodes to the same set.

* `openPartialFile_writeTrailer`: a trailer is read back if its length fits in 32 bits and
  its set in the sector;
* `calls_follow_iff`: calls are followed exactly if the ones before the last make no
  difference, since the copy of the handle stays as it was opened;
* `first_mark_forgotten`: two pieces are marked, and the first one is forgotten.
-/

set_option linter.unusedSectionVars false

namespace OpenDsn.Sealer

open Lib Lib.Runs Option

/-! ## Sizes -/

/-- `UnpaddedPieceSize.Padded` and `PaddedPieceSize.Unpadded` of the package `abi`. -/
class PieceSizes where
  padded : Nat → Nat
  padded_eq : ∀ size, padded size = size + size / 127
  unpadded : Nat → Nat
  unpadded_eq : ∀ size, unpadded size = size - size / 128

export PieceSizes (padded padded_eq unpadded unpadded_eq)

instance pieceSizes : PieceSizes := ⟨_, fun _ => rfl, _, fun _ => rfl⟩

section

variable [PieceSizes]

theorem padded_mul (k : Nat) : padded (127 * k) = 128 * k := by
  rw [padded_eq]
  omega

theorem unpadded_mul (k : Nat) : unpadded (128 * k) = 127 * k := by
  rw [unpadded_eq]
  omega

end

/-! ## The file -/

/-- `EncodeRuns`, and `FromBuf` with `RunIterator`. -/
structure Rle where
  encodeRuns : List Run → List UInt8
  fromBuf : List UInt8 → Option (List Run)
  fromBuf_encodeRuns : ∀ runs, ∃ runs', fromBuf (encodeRuns runs) = some runs' ∧
    ∀ x, covers runs' x = covers runs x

section

variable [BitFields] [PieceSizes]

structure PartialFile where
  maxPiece : Nat
  allocated : List Run
  file : File

inductive OpenErr
  /-- "sector file '%s' was smaller than the sector size %d < %d" -/
  | smaller (size maxPiece : Nat)
  /-- "reading trailer length: %w" -/
  | trailerLength
  /-- "file '%s' has inconsistent length; has %d bytes; expected %d (%d trailer, %d sector
  data)" -/
  | inconsistentLength (size expectLen trailer maxPiece : Nat)
  /-- "expected sector size to equal trailer start index" -/
  | trailerStart
  /-- "reading trailer: %w" -/
  | trailer
  /-- "decoding trailer: %w" -/
  | decode
  /-- "last set byte at index higher than sector size: %d > %d" -/
  | lastSet (lastSet maxPiece : Nat)

def pieceRun (offset size : Nat) : List Run :=
  if offset > 0 then [⟨false, offset⟩, ⟨true, size⟩] else [⟨true, size⟩]

def writeTrailer (rle : Rle) (maxPiece : Nat) (f : File) (runs : List Run) : File :=
  let trailer := rle.encodeRuns runs
  ((f.writeAt maxPiece trailer).writeAt (maxPiece + trailer.length)
    (toLittleEndian trailer.length)).truncate (maxPiece + trailer.length + 4)

def openPartialFile (rle : Rle) (maxPiece : Nat) (f : File) : Except OpenErr PartialFile :=
  if f.size < maxPiece then .error (.smaller f.size maxPiece)
  else
    match if 4 ≤ f.size then f.readAt (f.size - 4) 4 else none with
    | none => .error .trailerLength
    | some tlen =>
        let trailerLen := littleEndian tlen
        let expectLen := trailerLen + 4 + maxPiece
        if expectLen ≠ f.size then
          .error (.inconsistentLength f.size expectLen (trailerLen + 4) maxPiece)
        else
          let trailerStart := f.size - 4 - trailerLen
          if trailerStart ≠ maxPiece then .error .trailerStart
          else
            match f.readAt trailerStart trailerLen with
            | none => .error .trailer
            | some trailerBytes =>
                match rle.fromBuf trailerBytes with
                | none => .error .decode
                | some runs =>
                    let lastSet := count (fill runs)
                    if lastSet > maxPiece then .error (.lastSet lastSet maxPiece)
                    else .ok ⟨maxPiece, runs, f⟩

/-- A new file has no byte unsealed. -/
def createPartialFile (rle : Rle) (maxPiece : Nat) (f : File) : Except OpenErr PartialFile :=
  openPartialFile rle maxPiece
    (writeTrailer rle maxPiece { f with size := max f.size maxPiece } [])

def markAllocated (rle : Rle) (pf : PartialFile) (offset size : Nat) : PartialFile :=
  { pf with
    file := writeTrailer rle pf.maxPiece pf.file (union pf.allocated (pieceRun offset size)) }

/-- `fsutil.Deallocate`. A file system without holes keeps the bytes. -/
def deallocate (holes : Bool) (f : File) (offset length : Nat) : File :=
  if holes then f.punchHole offset length else f

def free (rle : Rle) (holes : Bool) (pf : PartialFile) (offset size : Nat) : PartialFile :=
  { pf with
    file := writeTrailer rle pf.maxPiece (deallocate holes pf.file offset size)
      (diff pf.allocated (pieceRun offset size)) }

def hasAllocated (pf : PartialFile) (offset size : Nat) : Bool :=
  count (inter pf.allocated (pieceRun (padded offset) (padded size))) = padded size

/-! ## Calls on a handle -/

inductive Call
  | markAllocated (offset size : Nat)
  | free (offset size : Nat)

def Call.run (rle : Rle) (holes : Bool) (pf : PartialFile) : Call → PartialFile
  | .markAllocated offset size => Sealer.markAllocated rle pf offset size
  | .free offset size => Sealer.free rle holes pf offset size

/-- What a call does to the set of unsealed bytes. -/
def Call.apply (s : Set Nat) : Call → Set Nat
  | .markAllocated offset size => s ∪ Set.Ico offset (offset + size)
  | .free offset size => s \ Set.Ico offset (offset + size)

def members (runs : List Run) : Set Nat := {x | covers runs x = true}

/-- The runs that a call writes. -/
def Call.trailer (allocated : List Run) : Call → List Run
  | .markAllocated offset size => union allocated (pieceRun offset size)
  | .free offset size => diff allocated (pieceRun offset size)

/-- The trailer is read back: its length fits in 32 bits and its set in the sector. -/
structure TrailerFits (rle : Rle) (maxPiece : Nat) (runs : List Run) : Prop where
  length : (rle.encodeRuns runs).length < 2 ^ 32
  inSector : members runs ⊆ Set.Iio maxPiece

namespace PartialFileLemmas

open File

variable {rle : Rle} {holes : Bool} {maxPiece : Nat} {f : File} {pf : PartialFile}

/-! ## Sets -/

theorem covers_pieceRun (offset size x : Nat) :
    covers (pieceRun offset size) x = true ↔ offset ≤ x ∧ x < offset + size := by
  unfold pieceRun
  split
  · rcases lt_or_add offset x with hlt | ⟨y, rfl⟩
    · rw [covers_cons_lt hlt]
      simp only [Bool.false_eq_true, false_iff]
      omega
    · refine (Bool.eq_iff_iff.mp covers_cons_add).trans ?_
      simp [covers]
  · simp only [covers]
    have : offset = 0 := by omega
    simp [this]

theorem total_pieceRun (offset size : Nat) : total (pieceRun offset size) = offset + size := by
  unfold pieceRun
  split
  · simp [total]
  · simp [total]
    omega

theorem members_pieceRun (offset size : Nat) :
    members (pieceRun offset size) = Set.Ico offset (offset + size) :=
  Set.ext fun x => covers_pieceRun offset size x

theorem members_union (a b : List Run) : members (union a b) = members a ∪ members b := by
  ext x
  simp [members, covers_union]

theorem members_diff (a b : List Run) : members (diff a b) = members a \ members b := by
  ext x
  simp [members, covers_diff]

theorem members_trailer (allocated : List Run) (call : Call) :
    members (call.trailer allocated) = call.apply (members allocated) := by
  cases call with
  | markAllocated offset size => exact (members_union _ _).trans (by rw [members_pieceRun]; rfl)
  | free offset size => exact (members_diff _ _).trans (by rw [members_pieceRun]; rfl)

/-- The count of a part of a piece is the size of the piece exactly if it is all of it. -/
theorem hasAllocated_iff (offset size : Nat) :
    hasAllocated pf offset size = true ↔
      Set.Ico (padded offset) (padded offset + padded size) ⊆ members pf.allocated := by
  have hmem : ∀ x, x ∈ memberSet (inter pf.allocated (pieceRun (padded offset) (padded size))) ↔
      x ∈ members pf.allocated ∧ x ∈ Finset.Ico (padded offset) (padded offset + padded size) := by
    intro x
    rw [mem_memberSet, covers_inter, Bool.and_eq_true_iff, covers_pieceRun, Finset.mem_Ico]
    rfl
  have hcard : (Finset.Ico (padded offset) (padded offset + padded size)).card = padded size := by
    simp
  unfold hasAllocated
  rw [decide_eq_true_eq, count_eq]
  constructor
  · intro heq x hx
    have hfull := Finset.eq_of_subset_of_card_le (fun x hx => ((hmem x).mp hx).2)
      (by rw [heq, hcard])
    exact ((hmem x).mp (hfull ▸ Finset.mem_Ico.mpr hx)).1
  · intro hall
    have hfull : memberSet (inter pf.allocated (pieceRun (padded offset) (padded size))) =
        Finset.Ico (padded offset) (padded offset + padded size) :=
      Finset.ext fun x => (hmem x).trans ⟨And.right, fun hx => ⟨hall (Finset.mem_Ico.mp hx), hx⟩⟩
    rw [hfull, hcard]

/-! ## Trailers -/

section Trailers

variable (rle maxPiece f) (runs : List Run)

@[simp] theorem writeTrailer_size : (writeTrailer rle maxPiece f runs).size =
      maxPiece + (rle.encodeRuns runs).length + 4 := rfl

theorem writeTrailer_data {i : Nat} (h : i < maxPiece) :
    (writeTrailer rle maxPiece f runs).byte i = f.byte i := by
  unfold writeTrailer truncate
  dsimp only
  rw [if_pos (by omega), writeAt_byte_lt (by omega), writeAt_byte_lt h]

theorem readAt_trailer :
    (writeTrailer rle maxPiece f runs).readAt maxPiece (rle.encodeRuns runs).length =
      some (rle.encodeRuns runs) := by
  refine readAt_eq_some _ (by rw [writeTrailer_size]; omega) fun i b hi => ?_
  have hlt : i < (rle.encodeRuns runs).length := (List.getElem?_eq_some_iff.mp hi).1
  unfold writeTrailer truncate
  dsimp only
  rw [if_pos (by omega), writeAt_byte_lt (by omega)]
  exact writeAt_byte hi

theorem readAt_trailerLength :
    (writeTrailer rle maxPiece f runs).readAt (maxPiece + (rle.encodeRuns runs).length) 4 =
      some (toLittleEndian (rle.encodeRuns runs).length) := by
  refine readAt_eq_some (toLittleEndian _) (le_refl _) fun i b hi => ?_
  have hlt : i < 4 := (List.getElem?_eq_some_iff.mp hi).1
  unfold writeTrailer truncate
  dsimp only
  rw [if_pos (by omega)]
  exact writeAt_byte hi

end Trailers

/-- A file is opened if the trailer is where its length puts it and can be decoded, and its
set is in the sector. -/
theorem openPartialFile_eq_ok_iff : openPartialFile rle maxPiece f = .ok pf ↔
    ∃ n, f.size = maxPiece + n + 4 ∧ (f.readAt (maxPiece + n) 4).map littleEndian = some n ∧
      (f.readAt maxPiece n).bind rle.fromBuf = some pf.allocated ∧
      members pf.allocated ⊆ Set.Iio maxPiece ∧ pf.maxPiece = maxPiece ∧ pf.file = f := by
  unfold openPartialFile
  constructor
  · intro h
    split at h
    · cases h
    split at h
    · cases h
    next tlen htlen =>
    split at htlen
    · dsimp only at h
      split at h
      · cases h
      next hexpect =>
      have hsize : f.size - 4 = maxPiece + littleEndian tlen := by omega
      rw [hsize] at htlen h
      rw [Nat.add_sub_cancel, if_neg (not_not.mpr rfl)] at h
      split at h
      · cases h
      next bytes hbytes =>
      split at h
      · cases h
      next runs hruns =>
      split at h
      · cases h
      next hlast =>
      cases h
      exact ⟨littleEndian tlen, by omega, by rw [htlen]; rfl,
        by rw [hbytes]; exact hruns, count_fill_le_iff.mp (Nat.le_of_not_gt hlast), rfl, rfl⟩
    · cases htlen
  · rintro ⟨n, hsize, htlen, htrailer, hin, hmax, hfile⟩
    obtain ⟨tlen, htlen, rfl⟩ := map_eq_some_iff.mp htlen
    obtain ⟨bytes, hbytes, hruns⟩ := bind_eq_some_iff.mp htrailer
    have hstart : f.size - 4 = maxPiece + littleEndian tlen := by omega
    rw [if_neg (by omega), if_pos (by omega), hstart, htlen]
    dsimp only
    rw [if_neg (by omega), Nat.add_sub_cancel, if_neg (not_not.mpr rfl), hbytes]
    dsimp only
    rw [hruns]
    dsimp only
    rw [if_neg (Nat.not_lt_of_le (count_fill_le_iff.mpr hin)), ← hmax, ← hfile]

/-- A trailer that was written is opened exactly if it fits. -/
theorem openPartialFile_writeTrailer (rle : Rle) (maxPiece : Nat) (f : File) {runs : List Run} :
    (∃ pf, openPartialFile rle maxPiece (writeTrailer rle maxPiece f runs) = .ok pf) ↔
      TrailerFits rle maxPiece runs := by
  obtain ⟨allocated, hdecode, hcovers⟩ := rle.fromBuf_encodeRuns runs
  have hmembers : members allocated = members runs := Set.ext fun x => by simp [members, hcovers]
  have hlength := readAt_trailerLength rle maxPiece f runs
  have htrailer := readAt_trailer rle maxPiece f runs
  constructor
  · rintro ⟨pf, hpf⟩
    obtain ⟨n, hsize, htlen, hbytes, hin, -, -⟩ := openPartialFile_eq_ok_iff.mp hpf
    rw [writeTrailer_size] at hsize
    obtain rfl : (rle.encodeRuns runs).length = n := by omega
    rw [hlength, map_some, littleEndian_toLittleEndian] at htlen
    rw [htrailer, bind_some, hdecode] at hbytes
    rw [← some.inj hbytes, hmembers] at hin
    refine ⟨?_, hin⟩
    rw [← some.inj htlen]
    exact Nat.mod_lt _ (by decide)
  · intro hfits
    refine ⟨⟨maxPiece, allocated, _⟩, openPartialFile_eq_ok_iff.mpr
      ⟨_, rfl, ?_, ?_, hmembers.subset.trans hfits.inSector, rfl, rfl⟩⟩
    · rw [hlength, map_some, littleEndian_toLittleEndian, Nat.mod_eq_of_lt hfits.length]
    · rw [htrailer]
      exact hdecode

theorem members_of_openPartialFile {runs : List Run}
    (h : openPartialFile rle maxPiece (writeTrailer rle maxPiece f runs) = .ok pf) :
    members pf.allocated = members runs := by
  obtain ⟨allocated, hdecode, hcovers⟩ := rle.fromBuf_encodeRuns runs
  obtain ⟨n, hsize, -, hbytes, -⟩ := openPartialFile_eq_ok_iff.mp h
  rw [writeTrailer_size] at hsize
  obtain rfl : (rle.encodeRuns runs).length = n := by omega
  rw [readAt_trailer, bind_some, hdecode] at hbytes
  ext x
  rw [← some.inj hbytes]
  simp [members, hcovers]

/-! ## Calls -/

section

variable (rle holes pf)

/-- A call leaves the copy of the handle as it is. -/
theorem run_eq (call : Call) : (call.run rle holes pf).allocated = pf.allocated ∧
      (call.run rle holes pf).maxPiece = pf.maxPiece ∧
      ∃ g, (call.run rle holes pf).file =
        writeTrailer rle pf.maxPiece g (call.trailer pf.allocated) := by
  cases call with
  | markAllocated offset size | free offset size => exact ⟨rfl, rfl, _, rfl⟩

theorem foldl_run_eq (calls : List Call) :
    (calls.foldl (Call.run rle holes) pf).allocated = pf.allocated ∧
      (calls.foldl (Call.run rle holes) pf).maxPiece = pf.maxPiece := by
  induction calls generalizing pf with
  | nil => exact ⟨rfl, rfl⟩
  | cons call calls ih =>
    obtain ⟨hallocated, hmax, -⟩ := run_eq rle holes pf call
    obtain ⟨ih1, ih2⟩ := ih (call.run rle holes pf)
    exact ⟨ih1.trans hallocated, ih2.trans hmax⟩

end

end PartialFileLemmas

/-- The bytes of a piece. -/
def pieceBytes (offset size : Nat) : Set Nat :=
  Set.Ico (padded offset) (padded offset + padded size)

open PartialFileLemmas in
/-- For every sequence of calls on a handle of an opened file: the set that is read back from
the file is the initial one with all calls applied, and `HasAllocated` answers by this set,
exactly if the last call alone gives the same set, in a trailer that fits, and the set of the
handle has the same pieces. -/
theorem calls_follow_iff {rle : Rle} {maxPiece : Nat} {f : File} {pf : PartialFile}
    (hopen : openPartialFile rle maxPiece f = .ok pf) (holes : Bool) (calls : List Call) :
    ((∃ disk, openPartialFile rle maxPiece (calls.foldl (Call.run rle holes) pf).file = .ok disk ∧
        members disk.allocated = calls.foldl Call.apply (members pf.allocated)) ∧
      ∀ offset size, hasAllocated (calls.foldl (Call.run rle holes) pf) offset size = true ↔
        pieceBytes offset size ⊆ calls.foldl Call.apply (members pf.allocated)) ↔
    ((∀ last ∈ calls.getLast?, TrailerFits rle maxPiece (last.trailer pf.allocated) ∧
        last.apply (members pf.allocated) = calls.foldl Call.apply (members pf.allocated)) ∧
      ∀ offset size, pieceBytes offset size ⊆ members pf.allocated ↔
        pieceBytes offset size ⊆ calls.foldl Call.apply (members pf.allocated)) := by
  obtain ⟨-, -, -, -, -, hmax, hfile⟩ := openPartialFile_eq_ok_iff.mp hopen
  generalize hexpected : calls.foldl Call.apply (members pf.allocated) = expected
  refine and_congr ?_ ?_
  · cases hlast : calls.getLast? with
    | none =>
      obtain rfl := List.getLast?_eq_none_iff.mp hlast
      refine iff_of_true ⟨pf, ?_, hexpected⟩ fun _ h => nomatch h
      rw [List.foldl_nil, hfile]
      exact hopen
    | some last =>
      -- The trailer of the last call is that of this call alone.
      obtain ⟨init, rfl⟩ := List.getLast?_eq_some_iff.mp hlast
      obtain ⟨hallocated, hpf⟩ := foldl_run_eq rle holes pf init
      obtain ⟨-, -, g, hg⟩ := run_eq rle holes (init.foldl (Call.run rle holes) pf) last
      rw [hallocated, hpf, hmax] at hg
      rw [List.foldl_append, List.foldl_cons, List.foldl_nil, hg]
      simp only [mem_def, some.injEq, forall_eq', ← members_trailer]
      constructor
      · rintro ⟨disk, hdisk, hset⟩
        exact ⟨(openPartialFile_writeTrailer rle maxPiece g).mp ⟨disk, hdisk⟩,
          (members_of_openPartialFile hdisk).symm.trans hset⟩
      · rintro ⟨hfits, hset⟩
        obtain ⟨disk, hdisk⟩ := (openPartialFile_writeTrailer rle maxPiece g).mpr hfits
        exact ⟨disk, hdisk, (members_of_openPartialFile hdisk).trans hset⟩
  · refine forall_congr' fun offset => forall_congr' fun size => ?_
    rw [hasAllocated_iff, (foldl_run_eq rle holes pf calls).1]
    rfl

end

/-- A simple encoding, of a run as its value and one more byte for each of its numbers. -/
def unaryRun (r : Run) : List UInt8 := (if r.val then 1 else 0) :: List.replicate r.len 2

/-- Reads from the end, with the length of the run that is being read. -/
def unaryStep (b : UInt8) (s : Nat × List Run) : Nat × List Run :=
  if b = 2 then (s.1 + 1, s.2) else (0, ⟨b = 1, s.1⟩ :: s.2)

theorem foldr_unaryStep (runs : List Run) :
    (runs.flatMap unaryRun).foldr unaryStep (0, []) = (0, runs) := by
  have hlen : ∀ n rest, (List.replicate n 2).foldr unaryStep (0, rest) = (n, rest) := by
    intro n rest
    induction n with
    | zero => rfl
    | succ n ih =>
      rw [List.replicate_succ, List.foldr_cons, ih]
      rfl
  induction runs with
  | nil => rfl
  | cons r runs ih =>
    rw [List.flatMap_cons, List.foldr_append, ih, unaryRun, List.foldr_cons, hlen]
    obtain ⟨val, len⟩ := r
    cases val <;> rfl

def unary : Rle where
  encodeRuns runs := runs.flatMap unaryRun
  fromBuf bytes := some (bytes.foldr unaryStep (0, [])).2
  fromBuf_encodeRuns runs := ⟨runs, by rw [foldr_unaryStep], fun _ => rfl⟩

open PartialFileLemmas in
theorem openPartialFile_unary {maxPiece : Nat} (f : File) {runs : List Run}
    (h : TrailerFits unary maxPiece runs) :
    openPartialFile unary maxPiece (writeTrailer unary maxPiece f runs) =
      .ok ⟨maxPiece, runs, writeTrailer unary maxPiece f runs⟩ := by
  refine openPartialFile_eq_ok_iff.mpr ⟨_, rfl, ?_, ?_, h.inSector, rfl, rfl⟩
  · rw [readAt_trailerLength, map_some, littleEndian_toLittleEndian,
      Nat.mod_eq_of_lt h.length]
  · rw [readAt_trailer]
    exact congrArg some (congrArg Prod.snd (foldr_unaryStep runs))

/-- A sector of eight bytes in which the first `len` are unsealed, as it is opened. -/
def smallSector (len : Nat) : PartialFile :=
  ⟨8, [⟨true, len⟩], writeTrailer unary 8 ⟨8, fun _ => 0⟩ [⟨true, len⟩]⟩

theorem members_smallSector (len : Nat) : members (smallSector len).allocated = Set.Iio len := by
  ext x
  simp [members, smallSector, covers]

/-- Marking bytes again makes no difference. -/
theorem calls_follow_iff_again :
    openPartialFile unary 8 (smallSector 4).file = .ok (smallSector 4) ∧
    (∃ disk, openPartialFile unary 8 ([Call.markAllocated 0 2, .markAllocated 2 2].foldl
          (Call.run unary true) (smallSector 4)).file = .ok disk ∧
        members disk.allocated = [Call.markAllocated 0 2, .markAllocated 2 2].foldl Call.apply
          (members (smallSector 4).allocated)) ∧
      ∀ offset size, hasAllocated ([Call.markAllocated 0 2, .markAllocated 2 2].foldl
          (Call.run unary true) (smallSector 4)) offset size = true ↔
        pieceBytes offset size ⊆ [Call.markAllocated 0 2, .markAllocated 2 2].foldl Call.apply
          (members (smallSector 4).allocated) := by
  have hopen : openPartialFile unary 8 (smallSector 4).file = .ok (smallSector 4) := rfl
  have hsame : ∀ offset ≤ 2, (Call.markAllocated offset 2).apply (Set.Iio 4) = Set.Iio 4 := by
    intro offset hoffset
    ext x
    simp only [Call.apply, Set.mem_union, Set.mem_Iio, Set.mem_Ico]
    omega
  refine ⟨hopen, (calls_follow_iff hopen true _).mpr ⟨?_, ?_⟩⟩
  · intro last hlast
    obtain rfl : .markAllocated 2 2 = last := some.inj hlast
    refine ⟨⟨by decide, count_fill_le_iff.mp (by decide)⟩, ?_⟩
    rw [members_smallSector]
    simp only [List.foldl_cons, List.foldl_nil, hsame 0 (by decide), hsame 2 (le_refl 2)]
  · intro offset size
    rw [members_smallSector]
    simp only [List.foldl_cons, List.foldl_nil, hsame 0 (by decide), hsame 2 (le_refl 2)]

/-- Bytes 0 and 1 are marked, then bytes 4 and 5. On disk the first two are not marked
anymore, and the handle knows of none. -/
theorem first_mark_forgotten : openPartialFile unary 8 (smallSector 0).file = .ok (smallSector 0) ∧
    ∃ disk, openPartialFile unary 8 ([Call.markAllocated 0 2, .markAllocated 4 2].foldl
          (Call.run unary true) (smallSector 0)).file = .ok disk ∧
      disk.allocated = [⟨false, 4⟩, ⟨true, 2⟩] ∧
      hasAllocated ([Call.markAllocated 0 2, .markAllocated 4 2].foldl
        (Call.run unary true) (smallSector 0)) 0 2 = false ∧
      pieceBytes 0 2 ⊆ [Call.markAllocated 0 2, .markAllocated 4 2].foldl Call.apply
        (members (smallSector 0).allocated) :=
  ⟨rfl, _, rfl, rfl, rfl, fun _ hx => .inl (.inr hx)⟩

end OpenDsn.Sealer
