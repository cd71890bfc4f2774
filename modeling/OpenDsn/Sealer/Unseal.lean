import OpenDsn.Sealer.PartialFile

/-!
# Unsealing a piece

`UnsealPiece` of `storage/sealer/ffiwrapper/sealer_cgo.go`: the bytes of a piece that are not
unsealed yet are computed as runs, and each run is unsealed, padded and written to the
unsealed file. The sector is sealed data and no updated replica, its unsealed file exists, and
`ffi.UnsealRange` gives the bytes of the sector that it is asked for.

* `mem_computeUnsealRanges`: what is to be unsealed;
* `unsealPiece_iff`: a piece is unsealed without harm, whatever the data of the sector is,
  exactly if nothing is to be unsealed or the piece is one run from its start;
* `half_piece_fails`: a piece of which one half is unsealed cannot be unsealed.
-/

namespace OpenDsn.Sealer

open Lib Lib.Runs List

/-! ## Padding -/

/-- The loops of `fr32.pad` over one chunk: a byte of the 128 padded ones from the 127 bytes
of the chunk. After 254 bits each there are two bits of zeros. -/
def padByte (chunk : Nat → UInt8) (i : Nat) : UInt8 :=
  if i < 31 then chunk i
  else if i = 31 then chunk i &&& 0x3f
  else if i < 63 then (chunk i <<< 2) ||| (chunk (i - 1) >>> 6)
  else if i = 63 then ((chunk i <<< 2) ||| (chunk (i - 1) >>> 6)) &&& 0x3f
  else if i < 95 then (chunk i <<< 4) ||| (chunk (i - 1) >>> 4)
  else if i = 95 then ((chunk i <<< 4) ||| (chunk (i - 1) >>> 4)) &&& 0x3f
  else if i < 127 then (chunk i <<< 6) ||| (chunk (i - 1) >>> 2)
  else (chunk 126 >>> 2) &&& 0x3f

/-- The padded data of a sector. -/
def padData (data : Nat → UInt8) (x : Nat) : UInt8 :=
  padByte (fun i => data (x / 128 * 127 + i)) (x % 128)

/-- What a pad writer passes on of the bytes that are written to it: whole chunks. -/
def pad (bytes : List UInt8) : List UInt8 :=
  (List.range (bytes.length / 127 * 128)).map (padData fun i => (bytes[i]?).getD 0)

def mtTresh : Nat := 512 <<< 10

/-! ## Unsealing -/

/-- Merge gaps between ranges which are close to each other. -/
def mergeGaps : Nat := 32 <<< 20

section

variable [BitFields] [PieceSizes]

def computeUnsealRanges (unsealed : List Run) (offset size : Nat) : List Run :=
  joinClose mergeGaps (diff (pieceRun (padded offset) (padded size)) unsealed)

/-- `ffi.UnsealRange`. -/
def unsealRange (data : Nat → UInt8) (offset len : Nat) : List UInt8 :=
  (List.range len).map fun i => data (offset + i)

inductive UnsealErr
  /-- "opening partial file: %w" -/
  | opening (err : OpenErr)
  /-- "piping output to unsealed file: copying data: %w" -/
  | copying
  /-- "piping output to unsealed file: closing padwriter: still have %d unprocessed bytes" -/
  | closing (unprocessed : Nat)

/-- What a node has for all calls. -/
structure UnsealEnv where
  rle : Rle
  cpus : Nat

/-- The goroutine that copies `size` bytes from the pipe to the file. If there are less, the
full buffers have been written when `CopyN` returns with an error. -/
def copyOut (cpus : Nat) (f : File) (offset size : Nat) (bytes : List UInt8) :
    File × Option UnsealErr :=
  let copied := bytes.take size
  if copied.length < size then
    let bsize := unpadded (min (padded size) (cpus * mtTresh))
    (f.writeAt offset (pad (copied.take (copied.length / bsize * bsize))), some .copying)
  else if size % 127 ≠ 0 then (f.writeAt offset (pad copied), some (.closing (size % 127)))
  else (f.writeAt offset (pad copied), none)

/-- One run of the loop. The writer is at the offset of the piece. -/
def unsealRun (env : UnsealEnv) (data : Nat → UInt8) (offset size : Nat) (pf : PartialFile)
    (start len : Nat) : PartialFile × Option UnsealErr :=
  match copyOut env.cpus pf.file (padded offset) size
      (unsealRange data (unpadded start) (unpadded len)) with
  | (f, some err) => ({ pf with file := f }, some err)
  | (f, none) => (markAllocated env.rle { pf with file := f } start len, none)

def unsealLoop (env : UnsealEnv) (data : Nat → UInt8) (offset size : Nat) (pf : PartialFile) :
    Nat → List Run → PartialFile × Option UnsealErr
  | _, [] => (pf, none)
  | nextat, piece :: runs =>
      if piece.val then
        match unsealRun env data offset size pf nextat piece.len with
        | (pf, some err) => (pf, some err)
        | (pf, none) => unsealLoop env data offset size pf (nextat + piece.len) runs
      else unsealLoop env data offset size pf (nextat + piece.len) runs

/-- The file after the call, and the error. -/
def unsealPiece (env : UnsealEnv) (maxPiece : Nat) (data : Nat → UInt8) (f : File)
    (offset size : Nat) : File × Option UnsealErr :=
  match openPartialFile env.rle maxPiece f with
  | .error err => (f, some (.opening err))
  | .ok pf =>
      match computeUnsealRanges pf.allocated offset size with
      | [] => (f, none)
      | toUnseal =>
          match unsealLoop env data offset size pf 0 toUnseal with
          | (pf, err) => (pf.file, err)

/-- The bytes of a set and of a piece are unsealed without an error. -/
structure Unsealed (env : UnsealEnv) (maxPiece : Nat) (data : Nat → UInt8) (s : Set Nat)
    (offset size : Nat) (result : File × Option UnsealErr) : Prop where
  noError : result.2 = none
  marked : ∃ pf, openPartialFile env.rle maxPiece result.1 = .ok pf ∧
    s ∪ pieceBytes offset size ⊆ members pf.allocated
  bytes : ∀ x ∈ s ∪ pieceBytes offset size, result.1.byte x = padData data x

/-- The same file but for the data of the sector. -/
structure SameTrailer (maxPiece : Nat) (f g : File) : Prop where
  size : g.size = f.size
  trailer : ∀ i, maxPiece ≤ i → g.byte i = f.byte i

/-- There is nothing to unseal, or one run from the start of the piece that has as many
unpadded bytes as the piece, and the trailer with this run is not too long. -/
def WholeRun (env : UnsealEnv) (allocated : List Run) (offset size : Nat) : Prop :=
  pieces 0 (computeUnsealRanges allocated offset size) = [] ∨
    ∃ len, pieces 0 (computeUnsealRanges allocated offset size) =
        [(padded offset, len)] ∧ unpadded len = size ∧
      (env.rle.encodeRuns (union allocated (pieceRun (padded offset) len))).length < 2 ^ 32

namespace UnsealLemmas

open PartialFileLemmas

variable {env : UnsealEnv} {maxPiece offset size : Nat} {data : Nat → UInt8} {f g : File}
  {pf : PartialFile} {p : Nat × Nat} {rest : List (Nat × Nat)}

/-! ## Padding -/

omit [BitFields] [PieceSizes] in
theorem padByte_congr {chunk chunk' : Nat → UInt8} (h : ∀ i < 127, chunk i = chunk' i) {i : Nat}
    (hi : i < 128) : padByte chunk i = padByte chunk' i := by
  unfold padByte
  by_cases hlast : i = 127
  · subst hlast
    simp [h]
  · rw [h i (by omega), h (i - 1) (by omega), h 126 (by omega)]

omit [BitFields] [PieceSizes] in
theorem length_unsealRange (data : Nat → UInt8) (offset len : Nat) :
    (unsealRange data offset len).length = len := by
  unfold unsealRange
  rw [length_map, length_range]

omit [BitFields] [PieceSizes] in
/-- Padding whole chunks of the data of a sector gives its padded data. -/
theorem pad_unsealRange (k q : Nat) :
    pad (unsealRange data (127 * k) (127 * q)) =
      (List.range (128 * q)).map fun j => padData data (128 * k + j) := by
  have hlen : (unsealRange data (127 * k) (127 * q)).length / 127 * 128 = 128 * q := by
    rw [length_unsealRange]
    omega
  unfold pad
  rw [hlen]
  refine map_congr_left fun j hj => ?_
  have hj : j < 128 * q := mem_range.mp hj
  unfold padData
  rw [show (128 * k + j) % 128 = j % 128 by omega]
  refine padByte_congr (fun i hi => ?_) (Nat.mod_lt _ (by decide))
  have hindex : j / 128 * 127 + i < 127 * q := by omega
  have hsame : 127 * k + (j / 128 * 127 + i) = (128 * k + j) / 128 * 127 + i := by omega
  unfold unsealRange
  dsimp only
  rw [getElem?_map, getElem?_range hindex, Option.map_some, Option.getD_some, hsame]

/-! ## What is to be unsealed -/

theorem alternating_computeUnsealRanges (unsealed : List Run) (offset size : Nat) :
    Alternating (computeUnsealRanges unsealed offset size) :=
  alternating_joinClose _ _ (alternating_diff _ _)

/-- What is to be unsealed is in the piece, and has all of it that is not unsealed. -/
theorem mem_computeUnsealRanges (unsealed : List Run) :
    pieceBytes offset size \ members unsealed ⊆
        members (computeUnsealRanges unsealed offset size) ∧
      members (computeUnsealRanges unsealed offset size) ⊆ pieceBytes offset size := by
  have hdiff : ∀ x, covers (diff (pieceRun (padded offset) (padded size)) unsealed) x = true ↔
      x ∈ pieceBytes offset size \ members unsealed := by
    intro x
    have h := Set.ext_iff.mp (members_diff (pieceRun (padded offset) (padded size)) unsealed) x
    rw [members_pieceRun] at h
    exact h
  constructor
  · intro x hx
    exact covers_joinClose _ _ x ((hdiff x).mpr hx)
  · intro x hx
    obtain ⟨htotal, a, hax, ha⟩ := of_covers_joinClose _ _ x (alternating_diff _ _) hx
    refine ⟨le_trans ((hdiff a).mp ha).1.1 hax, htotal.trans_le ((total_diff_le _ _).trans ?_)⟩
    exact le_of_eq (total_pieceRun _ _)

theorem mem_pieces_bounds {unsealed : List Run}
    (h : p ∈ pieces 0 (computeUnsealRanges unsealed offset size)) :
    padded offset ≤ p.1 ∧ 0 < p.2 ∧ p.1 + p.2 ≤ padded offset + padded size := by
  have hpos := pieces_pos (alternating_computeUnsealRanges unsealed offset size) p h
  have hmem : ∀ x, p.1 ≤ x → x < p.1 + p.2 → x ∈ pieceBytes offset size := fun x hle hlt =>
    (mem_computeUnsealRanges unsealed).2 ((covers_iff_mem_pieces 0).mpr
      ⟨p, h, by omega, by omega⟩)
  have hfirst := (hmem p.1 (le_refl _) (by omega)).1
  have hlast := (hmem (p.1 + p.2 - 1) (by omega) (by omega)).2
  exact ⟨hfirst, hpos, by omega⟩

/-! ## The loop -/

/-- The loop over the runs of members. -/
def unsealPieces (env : UnsealEnv) (data : Nat → UInt8) (offset size : Nat) (pf : PartialFile) :
    List (Nat × Nat) → PartialFile × Option UnsealErr
  | [] => (pf, none)
  | p :: rest =>
      match unsealRun env data offset size pf p.1 p.2 with
      | (pf, some err) => (pf, some err)
      | (pf, none) => unsealPieces env data offset size pf rest

theorem unsealLoop_eq (nextat : Nat) (runs : List Run) :
    unsealLoop env data offset size pf nextat runs =
      unsealPieces env data offset size pf (pieces nextat runs) := by
  induction runs generalizing pf nextat with
  | nil => rfl
  | cons r runs ih =>
    unfold unsealLoop pieces
    split
    · unfold unsealPieces
      dsimp only
      split
      · rfl
      · exact ih _
    · exact ih _

theorem unsealPiece_eq (hopen : openPartialFile env.rle maxPiece f = .ok pf) :
    unsealPiece env maxPiece data f offset size =
      let result := unsealPieces env data offset size pf
        (pieces 0 (computeUnsealRanges pf.allocated offset size))
      (result.1.file, result.2) := by
  obtain ⟨-, -, -, -, -, -, hfile⟩ := openPartialFile_eq_ok_iff.mp hopen
  unfold unsealPiece
  rw [hopen]
  dsimp only
  split
  · next hnil =>
    rw [hnil, ← hfile]
    rfl
  · rw [unsealLoop_eq]

theorem unsealRun_eq {start len : Nat} (hsize : 127 ∣ size) (h : unpadded len = size) :
    unsealRun env data offset size pf start len =
      (markAllocated env.rle
        { pf with
          file := pf.file.writeAt (padded offset)
            (pad (unsealRange data (unpadded start) size)) } start len, none) := by
  have hlen : (unsealRange data (unpadded start) size).length = size := length_unsealRange ..
  unfold unsealRun copyOut
  dsimp only
  rw [h, take_of_length_le (le_of_eq hlen), hlen, if_neg (lt_irrefl _),
    if_neg (not_not.mpr (Nat.mod_eq_zero_of_dvd hsize))]

theorem openPartialFile_of_sameTrailer (h : SameTrailer maxPiece f g)
    (hopen : openPartialFile env.rle maxPiece f = .ok pf) :
    openPartialFile env.rle maxPiece g = .ok { pf with file := g } := by
  obtain ⟨n, hsize, htlen, htrailer, hin, hmax, -⟩ := openPartialFile_eq_ok_iff.mp hopen
  have hread : ∀ start len, maxPiece ≤ start → g.readAt start len = f.readAt start len := by
    intro start len hle
    unfold File.readAt
    rw [h.size]
    split
    · refine congrArg some (map_congr_left fun i _ => h.trailer _ (by omega))
    · rfl
  refine openPartialFile_eq_ok_iff.mpr ⟨n, h.size.trans hsize, ?_, ?_, hin, hmax, rfl⟩
  · rw [hread _ _ (Nat.le_add_right _ _)]
    exact htlen
  · rw [hread _ _ (le_refl _)]
    exact htrailer

/-- The data of a sector in the file. -/
def withData (maxPiece : Nat) (f : File) (data : Nat → UInt8) : File :=
  { f with byte := fun i => if i < maxPiece then padData data i else f.byte i }

omit [BitFields] [PieceSizes] in
theorem sameTrailer_withData : SameTrailer maxPiece f (withData maxPiece f data) :=
  ⟨rfl, fun _ h => if_neg (Nat.not_lt_of_le h)⟩

theorem unsealPieces_copying (h : unpadded p.2 < size) (rest : List (Nat × Nat)) :
    (unsealPieces env data offset size pf (p :: rest)).2 = some .copying := by
  have hrun : (unsealRun env data offset size pf p.1 p.2).2 = some .copying := by
    unfold unsealRun copyOut
    rw [if_pos]
    rw [length_take, length_unsealRange]
    omega
  unfold unsealPieces
  split
  · next heq =>
    rw [heq] at hrun
    exact hrun
  · next heq =>
    rw [heq] at hrun
    cases hrun

theorem unsealPieces_singleton :
    unsealPieces env data offset size pf [p] = unsealRun env data offset size pf p.1 p.2 := by
  unfold unsealPieces
  split
  · next heq => exact heq.symm
  · next heq => exact heq.symm

theorem members_lt (hopen : openPartialFile env.rle maxPiece f = .ok pf) {x : Nat}
    (h : x ∈ members pf.allocated) : x < maxPiece := by
  obtain ⟨-, -, -, -, hin, -⟩ := openPartialFile_eq_ok_iff.mp hopen
  exact hin h

/-- The bytes of the file when a run from the start of the piece was written. -/
theorem byte_of_written {k q x : Nat} (hx : x < maxPiece) (runs : List Run)
    (hbyte : x ∉ pieceBytes (127 * k) (127 * q) → f.byte x = padData data x) :
    (writeTrailer env.rle maxPiece (f.writeAt (128 * k)
      (pad (unsealRange data (127 * k) (127 * q)))) runs).byte x = padData data x := by
  rw [writeTrailer_data _ _ _ _ hx, pad_unsealRange]
  unfold pieceBytes at hbyte
  rw [padded_mul, padded_mul] at hbyte
  rcases lt_or_add (128 * k) x with hlow | ⟨j, rfl⟩
  · rw [File.writeAt_byte_lt hlow]
    exact hbyte fun hmem => absurd hmem.1 (Nat.not_le_of_lt hlow)
  · by_cases hj : j < 128 * q
    · refine File.writeAt_byte ?_
      rw [getElem?_map, getElem?_range hj]
      rfl
    · rw [File.writeAt_byte_ge _ (by rw [length_map, length_range]; omega)]
      exact hbyte fun hmem => absurd hmem.2 (by omega)

/-- A byte of the piece that is not unsealed is in one of the runs. -/
theorem exists_piece_of_left {allocated : List Run} {x : Nat}
    (hx : x ∈ pieceBytes offset size) (hnot : x ∉ members allocated) :
    ∃ p ∈ pieces 0 (computeUnsealRanges allocated offset size), p.1 ≤ x ∧ x < p.1 + p.2 := by
  have hcovers := (mem_computeUnsealRanges allocated).1 ⟨hx, hnot⟩
  obtain ⟨p, hp, hle, hlt⟩ := (covers_iff_mem_pieces 0).mp hcovers
  exact ⟨p, hp, by omega, by omega⟩

section

variable (hopen : openPartialFile env.rle maxPiece f = .ok pf)
  (hdata : ∀ x ∈ members pf.allocated, f.byte x = padData data x)
include hopen hdata

theorem unsealed_of_nil
    (hnil : pieces 0 (computeUnsealRanges pf.allocated offset size) = []) :
    Unsealed env maxPiece data (members pf.allocated) offset size
      (unsealPiece env maxPiece data f offset size) := by
  obtain ⟨-, -, -, -, -, -, hfile⟩ := openPartialFile_eq_ok_iff.mp hopen
  have hsub : pieceBytes offset size ⊆ members pf.allocated := by
    intro x hx
    by_contra hnot
    obtain ⟨p, hp, -⟩ := exists_piece_of_left hx hnot
    rw [hnil] at hp
    cases hp
  have hall := Set.union_subset (Set.Subset.refl (members pf.allocated)) hsub
  rw [unsealPiece_eq hopen, hnil]
  dsimp only [unsealPieces]
  refine ⟨rfl, ⟨pf, ?_, hall⟩, fun x hx => ?_⟩
  · exact hfile.symm ▸ hopen
  · exact hfile.symm ▸ hdata x (hall hx)

/-- A piece that is one run is unsealed. -/
theorem unsealed_of_run {k q len : Nat} (hpiece : 128 * k + 128 * q ≤ maxPiece)
    (hsingle : pieces 0 (computeUnsealRanges pf.allocated (127 * k) (127 * q)) =
      [(128 * k, len)])
    (hlen : unpadded len = 127 * q)
    (hlength : (env.rle.encodeRuns (union pf.allocated (pieceRun (128 * k) len))).length < 2 ^ 32) :
    Unsealed env maxPiece data (members pf.allocated) (127 * k) (127 * q)
      (unsealPiece env maxPiece data f (127 * k) (127 * q)) := by
  obtain ⟨-, -, -, -, -, hmax, hfile⟩ := openPartialFile_eq_ok_iff.mp hopen
  have hset : members (union pf.allocated (pieceRun (128 * k) len)) =
      members pf.allocated ∪ Set.Ico (128 * k) (128 * k + len) := by
    rw [members_union, members_pieceRun]
  have hall : members pf.allocated ∪ pieceBytes (127 * k) (127 * q) ⊆
      members pf.allocated ∪ Set.Ico (128 * k) (128 * k + len) := by
    refine Set.union_subset Set.subset_union_left fun x hx => ?_
    by_cases hmem : x ∈ members pf.allocated
    · exact .inl hmem
    · obtain ⟨p, hp, hle, hlt⟩ := exists_piece_of_left hx hmem
      rw [hsingle] at hp
      obtain rfl := mem_singleton.mp hp
      exact .inr ⟨hle, hlt⟩
  have hbounds := mem_pieces_bounds (hsingle ▸ mem_singleton_self _)
  rw [padded_mul, padded_mul] at hbounds
  have hin : members pf.allocated ∪ Set.Ico (128 * k) (128 * k + len) ⊆ Set.Iio maxPiece := by
    rintro x (hx | hx)
    · exact members_lt hopen hx
    · exact lt_of_lt_of_le hx.2 (le_trans hbounds.2.2 hpiece)
  rw [unsealPiece_eq hopen, hsingle]
  rw [unsealPieces_singleton, unsealRun_eq (Nat.dvd_mul_right 127 q) hlen, padded_mul, unpadded_mul]
  rw [hmax, hfile]
  obtain ⟨disk, hdisk⟩ := (openPartialFile_writeTrailer env.rle maxPiece (f.writeAt (128 * k)
    (pad (unsealRange data (127 * k) (127 * q))))).mpr ⟨hlength, hset ▸ hin⟩
  refine ⟨rfl, ⟨disk, hdisk, ?_⟩, fun x hx => ?_⟩
  · rw [members_of_openPartialFile hdisk, hset]
    exact hall
  · refine byte_of_written (hin (hall hx)) _ fun hnot => hdata x (hx.resolve_right hnot)

theorem unsealed_of_wholeRun {k q : Nat} (hpiece : 128 * k + 128 * q ≤ maxPiece)
    (hrun : WholeRun env pf.allocated (127 * k) (127 * q)) :
    Unsealed env maxPiece data (members pf.allocated) (127 * k) (127 * q)
      (unsealPiece env maxPiece data f (127 * k) (127 * q)) := by
  unfold WholeRun at hrun
  rw [padded_mul] at hrun
  obtain hnil | ⟨len, hsingle, hlen, hlength⟩ := hrun
  · exact unsealed_of_nil hopen hdata hnil
  · exact unsealed_of_run hopen hdata hpiece hsingle hlen hlength

end

/-- If all but one byte of a piece are to be unsealed, these are one run. -/
theorem pieces_eq_singleton {allocated : List Run} {q : Nat}
    (h : pieces 0 (computeUnsealRanges allocated offset (127 * q)) = p :: rest)
    (hlen : unpadded p.2 = 127 * q) : rest = [] := by
  cases rest with
  | nil => rfl
  | cons p' rest =>
    have hsep := pieces_separated 0
      (alternating_computeUnsealRanges allocated offset (127 * q))
    rw [h] at hsep
    have hgap := rel_of_pairwise_cons hsep mem_cons_self
    have hp := mem_pieces_bounds (h ▸ mem_cons_self)
    have hp' := mem_pieces_bounds (h ▸ mem_cons_of_mem p mem_cons_self)
    rw [padded_mul] at hp hp'
    rw [unpadded_eq] at hlen
    omega

/-- A sector with one byte that is not zero. -/
def oneByte (offset : Nat) (i : Nat) : UInt8 := if i = offset then 1 else 0

/-- A run from the second byte of the piece is written at the first one. -/
theorem byte_of_shifted {k q : Nat} (hq : 0 < q) (hpiece : 128 * k < maxPiece) (runs : List Run) :
    (writeTrailer env.rle maxPiece (f.writeAt (128 * k)
        (pad (unsealRange (oneByte (127 * k)) (127 * k + 1) (127 * q)))) runs).byte (128 * k) ≠
      padData (oneByte (127 * k)) (128 * k) := by
  have hfirst : ∀ data : Nat → UInt8, padData data (128 * k) = data (127 * k) := by
    intro data
    unfold padData
    rw [Nat.mul_mod_right, show 128 * k / 128 * 127 = 127 * k by omega]
    rfl
  have hhead : (pad (unsealRange (oneByte (127 * k)) (127 * k + 1) (127 * q)))[0]? = some 0 := by
    unfold pad
    rw [length_unsealRange, getElem?_map, getElem?_range (by omega)]
    unfold unsealRange padData padByte
    simp [oneByte, getElem?_range (show 0 < 127 * q by omega)]
  rw [writeTrailer_data _ _ _ _ hpiece, hfirst]
  rw [show (f.writeAt (128 * k) _).byte (128 * k) = (f.writeAt (128 * k) _).byte (128 * k + 0) from
    rfl, File.writeAt_byte hhead]
  simp [oneByte]

/-- A run with less bytes than the piece gives an error. -/
theorem unpadded_eq_of_noError {q : Nat} (hle : p.2 ≤ 128 * q)
    (h : (unsealPieces env data offset (127 * q) pf (p :: rest)).2 = none) :
    unpadded p.2 = 127 * q := by
  by_contra hne
  have hlt : unpadded p.2 < 127 * q := by
    rw [unpadded_eq] at hne ⊢
    omega
  rw [unsealPieces_copying hlt] at h
  cases h

/-- If the piece is unsealed whatever the data is, it is one run. -/
theorem wholeRun_of_unsealed {k q : Nat} (hopen : openPartialFile env.rle maxPiece f = .ok pf)
    (hpiece : 128 * k + 128 * q ≤ maxPiece)
    (hall : ∀ data, Unsealed env maxPiece data (members pf.allocated) (127 * k) (127 * q)
      (unsealPiece env maxPiece data (withData maxPiece f data) (127 * k) (127 * q))) :
    WholeRun env pf.allocated (127 * k) (127 * q) := by
  obtain ⟨-, -, -, -, -, hmax, -⟩ := openPartialFile_eq_ok_iff.mp hopen
  simp only [unsealPiece_eq (openPartialFile_of_sameTrailer sameTrailer_withData hopen)] at hall
  unfold WholeRun
  cases hpieces : pieces 0 (computeUnsealRanges pf.allocated (127 * k) (127 * q)) with
  | nil => exact .inl rfl
  | cons p rest =>
    rw [hpieces] at hall
    have hbounds := mem_pieces_bounds (hpieces ▸ mem_cons_self)
    rw [padded_mul, padded_mul] at hbounds
    have hlen : unpadded p.2 = 127 * q :=
      unpadded_eq_of_noError (by omega) (hall fun _ => 0).noError
    obtain rfl := pieces_eq_singleton hpieces hlen
    simp only [unsealPieces_singleton, unsealRun_eq (Nat.dvd_mul_right 127 q) hlen, padded_mul]
      at hall
    -- a run that does not start with the piece moves its bytes
    have hstart : p.1 = 128 * k := by
      by_contra hne
      have hsecond : unpadded p.1 = 127 * k + 1 := by
        rw [unpadded_eq] at hlen ⊢
        omega
      have hmem : 128 * k ∈ members pf.allocated ∪ pieceBytes (127 * k) (127 * q) := by
        unfold pieceBytes
        rw [padded_mul, padded_mul]
        exact .inr ⟨le_refl _, by omega⟩
      have hbyte := (hall (oneByte (127 * k))).bytes _ hmem
      rw [hsecond] at hbyte
      unfold markAllocated at hbyte
      rw [hmax] at hbyte
      exact byte_of_shifted (by omega) (by omega) _ hbyte
    obtain ⟨disk, hdisk, -⟩ := (hall fun _ => 0).marked
    rw [hmax] at hdisk
    have hfits := (openPartialFile_writeTrailer env.rle maxPiece _).mp ⟨disk, hdisk⟩
    rw [hstart] at hfits
    rw [padded_mul]
    exact .inr ⟨p.2, by rw [← hstart], hlen, hfits.length⟩

end UnsealLemmas

open UnsealLemmas PartialFileLemmas in
/-- For every opened file and every piece of its sector: whatever the data of the sector is
and whatever the file has in the bytes that are not unsealed, the piece is unsealed without an
error and all bytes that were unsealed stay so, exactly if there is nothing to unseal or the
piece is one run. -/
theorem unsealPiece_iff {env : UnsealEnv} {maxPiece offset size : Nat} {f : File}
    {pf : PartialFile} (hopen : openPartialFile env.rle maxPiece f = .ok pf)
    (hoffset : 127 ∣ offset) (hsize : 127 ∣ size)
    (hpiece : padded offset + padded size ≤ maxPiece) :
    (∀ data g, SameTrailer maxPiece f g → (∀ x ∈ members pf.allocated, g.byte x = padData data x) →
      Unsealed env maxPiece data (members pf.allocated) offset size
        (unsealPiece env maxPiece data g offset size)) ↔
    WholeRun env pf.allocated offset size := by
  obtain ⟨k, rfl⟩ := hoffset
  obtain ⟨q, rfl⟩ := hsize
  rw [padded_mul, padded_mul] at hpiece
  constructor
  · intro hall
    refine wholeRun_of_unsealed hopen hpiece fun data => hall data _ ?_ ?_
    · exact sameTrailer_withData
    · exact fun x hx => if_pos (members_lt hopen hx)
  · intro hrun data g hsame hdata
    have hunsealed := unsealed_of_wholeRun (openPartialFile_of_sameTrailer hsame hopen) hdata
      hpiece hrun
    exact hunsealed

end

/-- A sector of two chunks, the first of which is unsealed, as it is opened. -/
def halfSector : PartialFile :=
  ⟨256, [⟨true, 128⟩], writeTrailer unary 256 ⟨256, fun _ => 0⟩ [⟨true, 128⟩]⟩

theorem openPartialFile_halfSector : openPartialFile unary 256 halfSector.file = .ok halfSector :=
  openPartialFile_unary _ ⟨by simp [unary, unaryRun], count_fill_le_iff.mp (by decide +kernel)⟩

def smallEnv : UnsealEnv := ⟨unary, 1⟩

/-- The second chunk is unsealed beside the first one. -/
theorem unsealPiece_iff_second : openPartialFile unary 256 halfSector.file = .ok halfSector ∧
    ∀ data g, SameTrailer 256 halfSector.file g →
      (∀ x ∈ members halfSector.allocated, g.byte x = padData data x) →
      Unsealed smallEnv 256 data (members halfSector.allocated) 127 127
        (unsealPiece smallEnv 256 data g 127 127) := by
  have hopen : openPartialFile smallEnv.rle 256 halfSector.file = .ok halfSector :=
    openPartialFile_halfSector
  exact ⟨hopen, (unsealPiece_iff hopen ⟨1, rfl⟩ ⟨1, rfl⟩ (by decide)).mpr
    (.inr ⟨128, by decide +kernel, rfl, by decide +kernel⟩)⟩

open UnsealLemmas PartialFileLemmas in
/-- The piece of both chunks, in a sector of zeros: for the second chunk there are 127 bytes,
and the copy waits for all 254 of the piece. -/
theorem half_piece_fails :
    openPartialFile unary 256 halfSector.file = .ok halfSector ∧
      (∀ x ∈ members halfSector.allocated, halfSector.file.byte x = padData (fun _ => 0) x) ∧
      (unsealPiece smallEnv 256 (fun _ => 0) halfSector.file 0 254).2 = some .copying := by
  have hopen : openPartialFile smallEnv.rle 256 halfSector.file = .ok halfSector :=
    openPartialFile_halfSector
  have hpieces : pieces 0 (computeUnsealRanges halfSector.allocated 0 254) =
      [(128, 128)] := by decide +kernel
  have hcopying : ∀ data, (unsealPiece smallEnv 256 data halfSector.file 0 254).2 =
      some .copying := by
    intro data
    rw [unsealPiece_eq hopen, hpieces]
    exact unsealPieces_copying (by decide) []
  have hzero : ∀ i < 128, padByte (fun _ => 0) i = 0 := by decide
  refine ⟨hopen, fun x hx => ?_, hcopying _⟩
  rw [padData, hzero _ (Nat.mod_lt x (by decide))]
  exact writeTrailer_data unary _ _ _ (members_lt hopen hx)

end OpenDsn.Sealer
