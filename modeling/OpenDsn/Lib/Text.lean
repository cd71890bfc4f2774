import Mathlib.Data.List.DropRight

/-!
# Text as the Go string functions see it

Texts are lists of characters. The functions follow the documented behaviour
of the Go packages `strings` and `unicode`.

* `contentLines_joinLines`: reading back lines that were joined and ended by a
  newline gives the same lines;
* `trimSpace_eq_self`: trimming keeps a text without white space;
* `atoi_itoa`: reading a written number gives it back.
-/

namespace OpenDsn.Lib

open List

abbrev Text := List Char

namespace Text

variable {t : Text}

/-- `unicode.IsSpace`. -/
def isSpace (c : Char) : Bool :=
  let n := c.toNat
  (9 ≤ n && n ≤ 13) || n == 0x20 || n == 0x85 || n == 0xA0 || n == 0x1680 ||
    (0x2000 ≤ n && n ≤ 0x200a) || n == 0x2028 || n == 0x2029 || n == 0x202f ||
    n == 0x205f || n == 0x3000

/-- `strings.TrimSpace`. -/
def trimSpace (t : Text) : Text := (t.dropWhile isSpace).rdropWhile isSpace

/-- `strings.ReplaceAll(t, "\r\n", "\n")`. -/
def unixNewlines : Text → Text
  | [] => []
  | c :: rest =>
      match c, rest with
      | '\r', '\n' :: rest' => '\n' :: unixNewlines rest'
      | c, rest => c :: unixNewlines rest

/-- `strings.TrimRight(t, "\n")`. -/
def trimNewlines (t : Text) : Text := t.rdropWhile (· == '\n')

/-- The lines of a file's content: `ReplaceAll`, `TrimRight`, then
`strings.Split(_, "\n")`, which gives one empty line for an empty text. -/
def contentLines (t : Text) : List Text := (trimNewlines (unixNewlines t)).splitOn '\n'

/-- `strings.Join(lines, "\n") + "\n"`. -/
def joinLines (lines : List Text) : Text := ['\n'].intercalate lines ++ ['\n']

theorem unixNewlines_eq_self (h : '\r' ∉ t) : unixNewlines t = t := by
  fun_induction unixNewlines t with
  | case1 => rfl
  | case2 rest _ => exact absurd mem_cons_self h
  | case3 c rest _ ih => rw [ih (fun hr => h (mem_cons_of_mem _ hr))]

theorem trimNewlines_newline (h : t.getLast? ≠ some '\n') :
    trimNewlines (t ++ ['\n']) = t := by
  unfold trimNewlines
  rw [rdropWhile_concat_pos _ _ _ (by decide)]
  cases ht : t.getLast? with
  | none => rw [getLast?_eq_none_iff.mp ht]; rfl
  | some c =>
    obtain ⟨init, rfl⟩ := getLast?_eq_some_iff.mp ht
    refine rdropWhile_concat_neg _ _ _ fun hc => h ?_
    rw [ht, eq_of_beq hc]

variable {lines : List Text} {c : Char}

theorem mem_intercalate {c sep : Char}
    (h : c ∈ [sep].intercalate lines) : c = sep ∨ ∃ l ∈ lines, c ∈ l := by
  induction lines with
  | nil => cases h
  | cons l rest ih =>
    cases rest with
    | nil => exact .inr ⟨l, mem_cons_self, by simpa using h⟩
    | cons l' rest' =>
      rw [intercalate_cons_cons] at h
      rcases mem_append.mp h with h | h
      · rcases mem_append.mp h with h | h
        · exact .inr ⟨l, mem_cons_self, h⟩
        · exact .inl (mem_singleton.mp h)
      · rcases ih h with h | ⟨m, hm, hc⟩
        · exact .inl h
        · exact .inr ⟨m, mem_cons_of_mem _ hm, hc⟩

/-- The last character of joined lines is the last one of the last line. -/
theorem getLast?_intercalate {sep : Text} {l : Text} (hl : l ≠ []) :
    (sep.intercalate (lines ++ [l])).getLast? = l.getLast? := by
  induction lines with
  | nil => simp
  | cons m rest ih =>
    cases hr : rest ++ [l] with
    | nil => exact absurd hr (by simp)
    | cons m' rest' =>
      rw [cons_append, hr, intercalate_cons_cons, getLast?_append, ← hr, ih]
      cases hg : l.getLast? with
      | none => exact absurd (getLast?_eq_none_iff.mp hg) hl
      | some c => rfl

/-- Lines without line breaks survive being joined and split again, as long as
the last one is not empty: trailing empty lines are trimmed away. -/
theorem contentLines_joinLines {last : Text}
    (hn : ∀ l ∈ lines ++ [last], '\n' ∉ l) (hr : ∀ l ∈ lines ++ [last], '\r' ∉ l)
    (hlast : last ≠ []) : contentLines (joinLines (lines ++ [last])) = lines ++ [last] := by
  have hcr : '\r' ∉ joinLines (lines ++ [last]) := by
    intro h
    rcases mem_append.mp h with h | h
    · rcases mem_intercalate h with h | ⟨l, hl, hc⟩
      · exact absurd h (by decide)
      · exact hr l hl hc
    · exact absurd (mem_singleton.mp h) (by decide)
  have hend : (['\n'].intercalate (lines ++ [last])).getLast? ≠ some '\n' := by
    rw [getLast?_intercalate hlast]
    intro h
    exact hn last (by simp) (mem_of_getLast? h)
  unfold contentLines
  rw [unixNewlines_eq_self hcr]
  unfold joinLines
  rw [trimNewlines_newline hend]
  exact splitOn_intercalate _ hn (by simp)

/-- White space in a fixed text is found by evaluation. -/
theorem no_space_of_any (h : t.any isSpace = false) : ∀ c ∈ t, isSpace c = false := by
  intro c hc
  have hno := any_eq_false.mp h c hc
  rwa [Bool.not_eq_true] at hno

theorem trimSpace_eq_self (h : ∀ c ∈ t, isSpace c = false) : trimSpace t = t := by
  have hdrop : t.dropWhile isSpace = t := by
    cases t with
    | nil => rfl
    | cons c rest => rw [dropWhile_cons_of_neg]; simp [h c mem_cons_self]
  unfold trimSpace
  rw [hdrop, rdropWhile_eq_self_iff]
  intro hne
  simp [h _ (getLast_mem hne)]

/-! ## Numbers -/

/-- `strconv.Itoa`. -/
def itoa : Int → Text
  | .ofNat n => Nat.toDigits 10 n
  | .negSucc n => '-' :: Nat.toDigits 10 (n + 1)

def parseDigits (t : Text) : Option Nat :=
  if t ≠ [] ∧ t.all Char.isDigit then some (Nat.ofDigitChars 10 t 0) else none

/-- `strconv.Atoi`, over unbounded integers. -/
def atoi : Text → Option Int
  | '-' :: t => (parseDigits t).map fun n => -(n : Int)
  | '+' :: t => (parseDigits t).map Int.ofNat
  | t => (parseDigits t).map Int.ofNat

theorem isDigit_of_mem_toDigits {n : Nat} (h : c ∈ Nat.toDigits 10 n) :
    c.isDigit = true := Nat.isDigit_of_mem_toDigits (by decide) (by decide) h

theorem parseDigits_toDigits (n : Nat) : parseDigits (Nat.toDigits 10 n) = some n := by
  have hall : (Nat.toDigits 10 n).all Char.isDigit = true :=
    all_eq_true.mpr fun c hc => isDigit_of_mem_toDigits hc
  unfold parseDigits
  rw [if_pos ⟨Nat.toDigits_ne_nil, hall⟩, Nat.ofDigitChars_ten_toDigits]

theorem atoi_itoa (i : Int) : atoi (itoa i) = some i := by
  cases i with
  | ofNat n =>
    show atoi (Nat.toDigits 10 n) = _
    unfold atoi
    -- A digit is no sign, so the text is read as it stands.
    split
    case h_3 => rw [parseDigits_toDigits]; rfl
    all_goals
      next t ht =>
      have hd := isDigit_of_mem_toDigits (n := n) (ht ▸ mem_cons_self)
      exact absurd hd (by decide)
  | negSucc n =>
    simp only [itoa, atoi, parseDigits_toDigits]
    rfl

theorem atoi_eq_none (h : c ∈ t) (hc : c.isDigit = false) (hsign : c ≠ '-' ∧ c ≠ '+') :
    atoi t = none := by
  have hparse : ∀ {t : Text}, c ∈ t → parseDigits t = none := fun h =>
    if_neg fun hall => Bool.false_ne_true (hc.symm.trans (all_eq_true.mp hall.2 c h))
  unfold atoi
  split
  · rw [hparse ((mem_cons.mp h).resolve_left hsign.1)]; rfl
  · rw [hparse ((mem_cons.mp h).resolve_left hsign.2)]; rfl
  · rw [hparse h]; rfl

theorem mem_itoa {i : Int} (h : c ∈ itoa i) : c.isDigit = true ∨ c = '-' := by
  cases i with
  | ofNat n => exact .inl (isDigit_of_mem_toDigits h)
  | negSucc n =>
    rcases mem_cons.mp h with h | h
    · exact .inr h
    · exact .inl (isDigit_of_mem_toDigits h)

theorem isSpace_of_isDigit (h : c.isDigit = true) : isSpace c = false := by
  have hrange : 48 ≤ c.toNat ∧ c.toNat ≤ 57 := by
    simpa [Char.isDigit, UInt32.le_iff_toNat_le] using h
  unfold isSpace
  simp only [Bool.or_eq_false_iff, Bool.and_eq_false_iff, decide_eq_false_iff_not,
    beq_eq_false_iff_ne]
  omega

theorem itoa_ne_nil (i : Int) : itoa i ≠ [] := by
  cases i with
  | ofNat n => exact Nat.toDigits_ne_nil
  | negSucc n => exact cons_ne_nil _ _

/-! ## Paths -/

/-- `filepath.Base`. -/
def pathBase (path : Text) : Text :=
  if path = [] then ['.']
  else
    let last := ((path.rdropWhile (· == '/')).reverse.takeWhile (· ≠ '/')).reverse
    if last = [] then ['/'] else last

/-- `filepath.Ext`: what follows the last dot of the last element, with it. -/
def pathExt (path : Text) : Text :=
  let tail := path.reverse.takeWhile fun c => c ≠ '/' ∧ c ≠ '.'
  match path.reverse.drop tail.length with
  | '.' :: _ => '.' :: tail.reverse
  | _ => []

end Text

end OpenDsn.Lib
