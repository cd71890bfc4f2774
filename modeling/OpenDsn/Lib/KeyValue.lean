import Mathlib.Algebra.Ring.Nat
import OpenDsn.Lib.Text

/-!
# Files of `key=value` lines

A file is read with `bufio.Scanner`, line by line; every line is trimmed and
cut at its first `=`, and both parts are trimmed again. Blank lines and lines
without `=` are passed over.

* `readPairs_writeLines`: fields that were written one to a line, with blank
  lines between them, are read back in their order.
-/

namespace OpenDsn.Lib.Text

open List Option

/-- `bufio.MaxScanTokenSize`. -/
def maxScanTokenSize : Nat := 64 * 1024

def byteLength (t : Text) : Nat := (t.map Char.utf8Size).sum

/-- A carriage return before the line end belongs to the line end. -/
def dropCR (t : Text) : Text := if t.getLast? = some '\r' then t.dropLast else t

/-- The tokens of `bufio.ScanLines`, or `none` for `bufio.ErrTooLong`: a line
and its newline have to fit the buffer. -/
def scanLines (t : Text) : Option (List Text) :=
  let cut := t.splitOn '\n'
  -- What follows the last newline is a line only if there is something.
  let lines := if cut.getLast? = some [] then cut.dropLast else cut
  if lines.all (fun l => decide (byteLength l < maxScanTokenSize)) then some (lines.map dropCR)
  else none

/-- `strings.SplitN(t, "=", 2)` when it gives two parts. -/
def splitEq (t : Text) : Option (Text × Text) :=
  if '=' ∈ t then some (t.takeWhile (· ≠ '='), (t.dropWhile (· ≠ '=')).tail) else none

/-- What one line of the file says. -/
def keyValue (line : Text) : Option (Text × Text) :=
  let line := trimSpace line
  if line = [] then none
  else (splitEq line).map fun parts => (trimSpace parts.1, trimSpace parts.2)

def readPairs (t : Text) : Option (List (Text × Text)) :=
  (scanLines t).map fun lines => lines.filterMap keyValue

/-- A line of the file: a field, or a blank line. -/
def fieldLine : Option (Text × Text) → Text
  | some (key, val) => key ++ '=' :: val
  | none => []

def writeLines (fields : List (Option (Text × Text))) : Text := joinLines (fields.map fieldLine)

/-- A key that is found again: no white space, no `=`, not empty. -/
structure KeyText (key : Text) : Prop where
  ne_nil : key ≠ []
  no_eq : '=' ∉ key
  no_space : ∀ c ∈ key, isSpace c = false

/-- A value that is found again: one line, trimmed. -/
structure ValueText (val : Text) : Prop where
  one_line : '\n' ∉ val
  trimmed : trimSpace val = val

namespace KeyValueLemmas

variable {key val : Text} (hk : KeyText key) (hv : ValueText val)

include hk hv

omit hk in
theorem isSpace_getLast_fieldLine (hne : fieldLine (some (key, val)) ≠ []) :
    isSpace ((fieldLine (some (key, val))).getLast hne) = false := by
  simp only [fieldLine]
  rw [getLast_append_of_ne_nil _ (cons_ne_nil _ _)]
  by_cases hval : val = []
  · subst hval; decide
  · rw [getLast_cons hval]
    -- White space at the end would have been trimmed.
    have hr : val.rdropWhile isSpace = val := by
      conv_lhs => rw [← hv.trimmed]
      unfold trimSpace
      rw [rdropWhile_idempotent]
      exact hv.trimmed
    rw [← Bool.not_eq_true]
    exact rdropWhile_eq_self_iff.mp hr hval

theorem trimSpace_fieldLine :
    trimSpace (fieldLine (some (key, val))) = fieldLine (some (key, val)) := by
  have hdrop : (fieldLine (some (key, val))).dropWhile isSpace = fieldLine (some (key, val)) := by
    cases key with
    | nil => exact absurd rfl hk.ne_nil
    | cons c rest =>
      have hc := hk.no_space c mem_cons_self
      simp only [fieldLine, cons_append]
      rw [dropWhile_cons_of_neg (by simp [hc])]
  unfold trimSpace
  rw [hdrop, rdropWhile_eq_self_iff]
  intro hne
  rw [isSpace_getLast_fieldLine hv hne]
  exact Bool.false_ne_true

omit hk in
theorem dropCR_fieldLine : dropCR (fieldLine (some (key, val))) = fieldLine (some (key, val)) := by
  have hne : fieldLine (some (key, val)) ≠ [] := by simp [fieldLine]
  refine if_neg fun h => ?_
  rw [getLast?_eq_some_getLast hne] at h
  have hs := isSpace_getLast_fieldLine hv hne
  rw [some.inj h] at hs
  cases hs

theorem newline_not_mem_fieldLine : '\n' ∉ fieldLine (some (key, val)) := by
  intro h
  rcases mem_append.mp h with h | h
  · cases hk.no_space _ h
  · rcases mem_cons.mp h with h | h
    · exact absurd h (by decide)
    · exact hv.one_line h

omit hv in
theorem splitEq_fieldLine : splitEq (fieldLine (some (key, val))) = some (key, val) := by
  have hkey : ∀ c ∈ key, decide (c ≠ '=') = true := fun c hc =>
    decide_eq_true fun h => hk.no_eq (h ▸ hc)
  unfold splitEq
  simp only [fieldLine]
  rw [takeWhile_append_of_pos hkey, dropWhile_append_of_pos hkey]
  simp

theorem keyValue_fieldLine : keyValue (fieldLine (some (key, val))) = some (key, val) := by
  have hne : fieldLine (some (key, val)) ≠ [] := by simp [fieldLine]
  unfold keyValue
  simp only [trimSpace_fieldLine hk hv, if_neg hne, splitEq_fieldLine hk, map_some,
    trimSpace_eq_self hk.no_space, hv.trimmed]

end KeyValueLemmas

open KeyValueLemmas

theorem joinLines_eq (lines : List Text) (hne : lines ≠ []) :
    joinLines lines = ['\n'].intercalate (lines ++ [[]]) := by
  unfold joinLines
  induction lines with
  | nil => exact absurd rfl hne
  | cons l rest ih =>
    cases rest with
    | nil => simp [intercalate_cons_cons]
    | cons l' rest' =>
      rw [intercalate_cons_cons, append_assoc, ih (cons_ne_nil _ _)]
      simp only [cons_append, intercalate_cons_cons]

theorem scanLines_joinLines {lines : List Text} (hne : lines ≠ [])
    (hn : ∀ l ∈ lines, '\n' ∉ l) (hcr : ∀ l ∈ lines, dropCR l = l)
    (hlen : ∀ l ∈ lines, byteLength l < maxScanTokenSize) :
    scanLines (joinLines lines) = some lines := by
  have hsplit : (joinLines lines).splitOn '\n' = lines ++ [[]] := by
    rw [joinLines_eq lines hne]
    have hnil : ∀ l ∈ [([] : Text)], '\n' ∉ l := forall_mem_singleton.mpr not_mem_nil
    exact splitOn_intercalate _ (forall_mem_append.mpr ⟨hn, hnil⟩) (by simp)
  have hall : lines.all (fun l => decide (byteLength l < maxScanTokenSize)) = true :=
    all_eq_true.mpr fun l hl => decide_eq_true (hlen l hl)
  unfold scanLines
  simp only [hsplit, getLast?_concat, if_true, dropLast_concat, hall]
  exact congrArg some ((map_congr_left hcr).trans (map_id _))

/-- A field that can be written: the line fits the scanner's buffer. -/
structure FieldText (field : Text × Text) : Prop where
  key : KeyText field.1
  val : ValueText field.2
  fits : byteLength (fieldLine (some field)) < maxScanTokenSize

theorem readPairs_writeLines {fields : List (Option (Text × Text))} (hne : fields ≠ [])
    (h : ∀ field, some field ∈ fields → FieldText field) :
    readPairs (writeLines fields) = some (fields.filterMap id) := by
  have hline : ∀ P : Text → Prop, P [] → (∀ f, FieldText f → P (fieldLine (some f))) →
      ∀ l ∈ fields.map fieldLine, P l := by
    intro P hblank hfield l hl
    obtain ⟨field, hf, rfl⟩ := mem_map.mp hl
    cases field with
    | none => exact hblank
    | some field => exact hfield field (h _ hf)
  have hlines : scanLines (writeLines fields) = some (fields.map fieldLine) := by
    apply scanLines_joinLines (by simpa using hne)
    · exact hline _ not_mem_nil fun f hf => newline_not_mem_fieldLine hf.key hf.val
    · exact hline _ rfl fun f hf => dropCR_fieldLine hf.val
    · exact hline _ (by decide) fun f hf => hf.fits
  unfold readPairs
  rw [hlines, map_some, filterMap_map]
  refine congrArg some (filterMap_congr fun field hf => ?_)
  cases field with
  | none => rfl
  | some field => exact keyValue_fieldLine (h _ hf).key (h _ hf).val

end OpenDsn.Lib.Text
