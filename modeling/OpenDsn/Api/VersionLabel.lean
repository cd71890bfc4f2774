import OpenDsn.Lib.Text

/-!
# Version labels

`cmd/opendsn-api/catalog.go`: labels such as `v3` and `v3.1.2`. The first number
is the generation of a version; a version's first successor takes the next
generation, further ones get a branch number appended.

* `parse_format`: a formatted label parses to its parts;
* `nextGenerationLabel_format`, `branchLabel_format`: the two ways a label is
  derived from the parent's;
* `generation_format`: the number before the first dot.
-/

namespace OpenDsn.Api

open Lib Lib.Text List

def parseVersionLabel (label : Text) : Option (List Int) :=
  match trimSpace label with
  | c :: d :: rest =>
      if c ≠ 'v' ∧ c ≠ 'V' then none
      else ((d :: rest).splitOn '.').mapM fun rawPart =>
        if rawPart = [] then none else atoi rawPart
  | _ => none

def formatVersionLabel (parts : List Int) : Text :=
  if parts = [] then ['v', '1'] else 'v' :: ['.'].intercalate (parts.map itoa)

def nextGenerationLabel (label : Text) : Text :=
  match parseVersionLabel label with
  | some (part :: rest) => formatVersionLabel ((part + 1) :: rest)
  | _ => label ++ ['.', '1']

/-- `fmt.Sprintf("%s.%d", continuationLabel, branchOffset+1)`. -/
def branchLabel (continuationLabel : Text) (branchOffset : Nat) : Text :=
  continuationLabel ++ '.' :: itoa (branchOffset + 1)

def compareParts : List Int → List Int → Ordering
  | [], [] => .eq
  | [], _ :: _ => .lt
  | _ :: _, [] => .gt
  | l :: ls, r :: rs => if l ≠ r then (if l < r then .lt else .gt) else compareParts ls rs

def compareVersionLabels (left right : Text) : Ordering :=
  match parseVersionLabel left, parseVersionLabel right with
  | some leftParts, some rightParts => compareParts leftParts rightParts
  | some _, none => .lt
  | none, some _ => .gt
  | none, none => if left < right then .lt else if left = right then .eq else .gt

/-- The number before the first dot of a label. -/
def generation (label : Text) : Option Int :=
  match label with
  | [] => none
  | _ :: rest => atoi (rest.takeWhile (· ≠ '.'))

namespace VersionLabelLemmas

theorem dot_not_mem_itoa (i : Int) : '.' ∉ itoa i := by
  intro h
  rcases mem_itoa h with h | h <;> exact absurd h (by decide)

theorem formatVersionLabel_cons (part : Int) (rest : List Int) :
    formatVersionLabel (part :: rest) = 'v' :: ['.'].intercalate ((part :: rest).map itoa) :=
  if_neg (cons_ne_nil _ _)

/-- A label is `v`, its first number, and then nothing or a dot and more. -/
theorem format_eq (part : Int) (rest : List Int) :
    ∃ tail, formatVersionLabel (part :: rest) = 'v' :: (itoa part ++ tail) ∧
      (tail = [] ∨ ∃ t, tail = '.' :: t) := by
  rw [formatVersionLabel_cons]
  cases rest with
  | nil => exact ⟨[], by simp, .inl rfl⟩
  | cons part' rest =>
    refine ⟨'.' :: ['.'].intercalate ((part' :: rest).map itoa), ?_, .inr ⟨_, rfl⟩⟩
    simp only [map_cons, intercalate_cons_cons, append_assoc, singleton_append]

theorem intercalate_snoc {sep : Text} {ls : List Text} (h : ls ≠ []) (l : Text) :
    sep.intercalate (ls ++ [l]) = sep.intercalate ls ++ (sep ++ l) := by
  induction ls with
  | nil => exact absurd rfl h
  | cons x rest ih =>
    cases rest with
    | nil => simp
    | cons y rest =>
      rw [cons_append, cons_append, intercalate_cons_cons,
        intercalate_cons_cons, ← cons_append, ih (cons_ne_nil _ _)]
      simp only [append_assoc]

theorem no_space_format (parts : List Int) : ∀ c ∈ formatVersionLabel parts, isSpace c = false := by
  intro c hc
  unfold formatVersionLabel at hc
  split at hc
  · exact no_space_of_any (by decide) c hc
  · rcases mem_cons.mp hc with rfl | hc
    · decide
    · rcases mem_intercalate hc with rfl | ⟨l, hl, hcl⟩
      · decide
      · obtain ⟨i, -, rfl⟩ := mem_map.mp hl
        rcases mem_itoa hcl with h | rfl
        · exact isSpace_of_isDigit h
        · decide

theorem mapM_atoi (parts : List Int) :
    (parts.map itoa).mapM (fun rawPart => if rawPart = [] then none else atoi rawPart) =
      some parts := by
  induction parts with
  | nil => rfl
  | cons part rest ih =>
    rw [map_cons, mapM_cons, if_neg (itoa_ne_nil part), atoi_itoa, ih]
    rfl

end VersionLabelLemmas

open VersionLabelLemmas

theorem parse_format {parts : List Int} (h : parts ≠ []) :
    parseVersionLabel (formatVersionLabel parts) = some parts := by
  obtain ⟨part, rest, rfl⟩ := exists_cons_of_ne_nil h
  obtain ⟨tail, htail, -⟩ := format_eq part rest
  obtain ⟨d, ds, hd⟩ := exists_cons_of_ne_nil (itoa_ne_nil part)
  have hbody : ['.'].intercalate ((part :: rest).map itoa) = d :: (ds ++ tail) := by
    rw [formatVersionLabel_cons, hd] at htail
    exact (List.cons.inj htail).2
  unfold parseVersionLabel
  rw [trimSpace_eq_self (no_space_format _), formatVersionLabel_cons, hbody]
  show (if 'v' ≠ 'v' ∧ 'v' ≠ 'V' then none else _) = _
  rw [if_neg (by decide), ← hbody, splitOn_intercalate _ _ (by simp), mapM_atoi]
  exact forall_mem_map.mpr fun i _ => dot_not_mem_itoa i

theorem nextGenerationLabel_format (part : Int) (rest : List Int) :
    nextGenerationLabel (formatVersionLabel (part :: rest)) =
      formatVersionLabel ((part + 1) :: rest) := by
  unfold nextGenerationLabel
  rw [parse_format (cons_ne_nil _ _)]

theorem branchLabel_format (part : Int) (rest : List Int) (branchOffset : Nat) :
    branchLabel (formatVersionLabel (part :: rest)) branchOffset =
      formatVersionLabel (part :: (rest ++ [(branchOffset : Int) + 1])) := by
  rw [formatVersionLabel_cons, formatVersionLabel_cons, ← cons_append, map_append,
    map_singleton, intercalate_snoc (by simp)]
  rfl

theorem generation_format (part : Int) (rest : List Int) :
    generation (formatVersionLabel (part :: rest)) = some part := by
  obtain ⟨tail, htail, hdot⟩ := format_eq part rest
  rw [htail]
  have hpart : ∀ c ∈ itoa part, decide (c ≠ '.') = true := by
    intro c hc
    exact decide_eq_true fun h => dot_not_mem_itoa part (h ▸ hc)
  have htake : (itoa part ++ tail).takeWhile (fun c => decide (c ≠ '.')) = itoa part := by
    rw [takeWhile_append_of_pos hpart]
    rcases hdot with rfl | ⟨t, rfl⟩ <;> simp
  show atoi _ = _
  rw [htake, atoi_itoa]

end OpenDsn.Api
