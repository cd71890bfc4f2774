import OpenDsn.Lib.Decimal
import OpenDsn.Lib.KeyValue

/-!
# The proof log

`storage/prooflog/proof_log.go`: the sealing pipeline and the window PoSt
scheduler note in the file `proof_info.log` when the last proof of their type
was started or completed and how long it took. Every call reads the file, sets
the record of its proof type and replaces the file. Nothing is kept in memory,
so a run is a sequence of contents of the file.

* `loadState_writeState`: a state whose values are single trimmed lines is read
  back as it was written;
* `LogInv.run`, `exists_logInv`: every call keeps the log in such a state,
  whatever the proof type and the times, and whether or not the file operations
  succeed.
-/

namespace OpenDsn.Prooflog

open Lib Lib.Text

/-! ## Times -/

/-- `time.Time`: seconds since 1970 and nanoseconds, the monotonic clock reading
if there is one, and the offset of the zone in seconds east of Greenwich. -/
structure Time where
  sec : Int64
  nsec : Fin 1000000000
  mono : Option Int64
  offset : Int64

/-- The date of a day counted from 1970-01-01, in the proleptic Gregorian
calendar: year, month, day. Years are counted from March in between. -/
def civil (days : Int) : Int × Int × Int :=
  let z := days + 719468
  let era := z / 146097
  let doe := z % 146097
  let yoe := (doe - doe / 1460 + doe / 36524 - doe / 146096) / 365
  let doy := doe - (365 * yoe + yoe / 4 - yoe / 100)
  let mp := (5 * doy + 2) / 153
  let month := if mp < 10 then mp + 3 else mp - 9
  let year := yoe + era * 400
  (if month ≤ 2 then year + 1 else year, month, doy - (153 * mp + 2) / 5 + 1)

/-- The zone of `Z07:00`. -/
def formatZone (offset : Int) : Text :=
  if offset = 0 then ['Z']
  else
    let zone := (offset.tdiv 60).natAbs
    (if offset.tdiv 60 < 0 then '-' else '+') ::
      (padInt 2 (zone / 60 : Nat) ++ ':' :: padInt 2 (zone % 60 : Nat))

/-- `Format(time.RFC3339)`. -/
def Time.rfc3339 (t : Time) : Text :=
  let local_ := t.sec.toInt + t.offset.toInt
  let date := civil (local_ / 86400)
  let clock := local_ % 86400
  padInt 4 date.1 ++ '-' :: padInt 2 date.2.1 ++ '-' :: padInt 2 date.2.2 ++
    'T' :: padInt 2 (clock / 3600) ++ ':' :: padInt 2 (clock % 3600 / 60) ++
    ':' :: padInt 2 (clock % 60) ++ formatZone t.offset.toInt

/-- A difference as a `time.Duration`, which saturates. -/
def saturate (d : Int) : Int := max (-2 ^ 63) (min (2 ^ 63 - 1) d)

/-- `Sub`, in nanoseconds: the monotonic clock where both times have one. -/
def Time.sub (t u : Time) : Int :=
  match t.mono, u.mono with
  | some a, some b => saturate (a.toInt - b.toInt)
  | _, _ => saturate ((t.sec.toInt - u.sec.toInt) * 10 ^ 9 + ((t.nsec : Int) - (u.nsec : Int)))

def formatSeconds (d : Int) : Text :=
  fixed3 (float64 ((d.tdiv (10 ^ 9) : Int) + float64 ((d.tmod (10 ^ 9) : Int) / 10 ^ 9)))

def formatMilliseconds (d : Int) : Text :=
  fixed3 (float64 (float64 (d.tdiv 1000 : Int) / 1000))

/-! ## The state -/

/-- `ProofType`, a string. -/
abbrev ProofType := Text

def storageProof : ProofType := "storage_proof".toList

def windowPoSt : ProofType := "window_post".toList

def statusProcessing : Text := "processing".toList

def statusCompleted : Text := "completed".toList

structure ProofRecord where
  type : ProofType
  status : Text
  timestamp : Text
  generateDurationSeconds : Text
  verifyDurationMilliseconds : Text

structure ProofInfoState where
  storageProof : ProofRecord
  windowPoSt : ProofRecord

/-- What `loadState` starts from. -/
def emptyRecord (pt : ProofType) : ProofRecord :=
  { type := pt
    status := []
    timestamp := []
    generateDurationSeconds := ['0']
    verifyDurationMilliseconds := ['0'] }

def emptyState : ProofInfoState :=
  { storageProof := emptyRecord storageProof
    windowPoSt := emptyRecord windowPoSt }

/-- A record of any other type is dropped. -/
def setRecord (st : ProofInfoState) (rec : ProofRecord) : ProofInfoState :=
  if rec.type = storageProof then { st with storageProof := rec }
  else if rec.type = windowPoSt then { st with windowPoSt := rec }
  else st

/-! ## The file -/

inductive RecordField
  | type
  | status
  | timestamp
  | generateDuration
  | verifyDuration
deriving DecidableEq

def ProofRecord.set (rec : ProofRecord) (val : Text) : RecordField → ProofRecord
  | .type => { rec with type := val }
  | .status => { rec with status := val }
  | .timestamp => { rec with timestamp := val }
  | .generateDuration => { rec with generateDurationSeconds := val }
  | .verifyDuration => { rec with verifyDurationMilliseconds := val }

/-- The two records of the file. -/
inductive Section
  | storageProof
  | windowPoSt
deriving DecidableEq

/-- The cases of the switch over the key, the same in `loadState` and in
`parseProofInfo`. The two keys in seconds are of an older format. -/
def fieldOfKey : List (Text × Section × RecordField) :=
  [("storage_proof_type".toList, .storageProof, .type),
   ("storage_proof_status".toList, .storageProof, .status),
   ("storage_proof_timestamp".toList, .storageProof, .timestamp),
   ("storage_proof_generate_duration_seconds".toList, .storageProof, .generateDuration),
   ("storage_proof_verify_duration_milliseconds".toList, .storageProof, .verifyDuration),
   ("storage_proof_verify_duration_seconds".toList, .storageProof, .verifyDuration),
   ("window_post_type".toList, .windowPoSt, .type),
   ("window_post_status".toList, .windowPoSt, .status),
   ("window_post_timestamp".toList, .windowPoSt, .timestamp),
   ("window_post_generate_duration_seconds".toList, .windowPoSt, .generateDuration),
   ("window_post_verify_duration_milliseconds".toList, .windowPoSt, .verifyDuration),
   ("window_post_verify_duration_seconds".toList, .windowPoSt, .verifyDuration)]

/-- One line of the file. -/
def loadPair (st : ProofInfoState) (pair : Text × Text) : ProofInfoState :=
  match fieldOfKey.lookup pair.1 with
  | some (.storageProof, f) => { st with storageProof := st.storageProof.set pair.2 f }
  | some (.windowPoSt, f) => { st with windowPoSt := st.windowPoSt.set pair.2 f }
  | none => st

inductive LogError
  /-- "open %s: %w" -/
  | open_
  /-- "read %s: %w" -/
  | read
  /-- "write temp %s: %w" -/
  | writeTemp
  /-- "replace %s: %w" -/
  | replace

/-- The file `proof_info.log`, if it exists. -/
abbrev LogFile := Option Text

/-- The loop of `loadState` over the lines; the scanner fails on a line that is
too long. -/
def loadContent (content : Text) : Except LogError ProofInfoState :=
  match readPairs content with
  | some pairs => .ok (pairs.foldl loadPair emptyState)
  | none => .error .read

def loadState : LogFile → Except LogError ProofInfoState
  | none => .ok emptyState
  | some content => loadContent content

/-- The lines of one record. -/
def recordLines (pt : ProofType) (rec : ProofRecord) : List (Option (Text × Text)) :=
  [some (pt ++ "_type".toList, rec.type), some (pt ++ "_status".toList, rec.status),
   some (pt ++ "_timestamp".toList, rec.timestamp),
   some (pt ++ "_generate_duration_seconds".toList, rec.generateDurationSeconds),
   some (pt ++ "_verify_duration_milliseconds".toList, rec.verifyDurationMilliseconds)]

/-- The content that `writeState` puts in place of the file. -/
def stateContent (st : ProofInfoState) : Text :=
  writeLines
    (recordLines storageProof st.storageProof ++ none :: recordLines windowPoSt st.windowPoSt)

/-! ## The calls -/

inductive Call
  | startProof (pt : ProofType) (now : Time)
  | completeProof (pt : ProofType) (now startedAt verifyStartedAt : Time)

def Call.record : Call → ProofRecord
  | .startProof pt now =>
      { type := pt
        status := statusProcessing
        timestamp := now.rfc3339
        generateDurationSeconds := ['0']
        verifyDurationMilliseconds := ['0'] }
  | .completeProof pt now startedAt verifyStartedAt =>
      { type := pt
        status := statusCompleted
        timestamp := now.rfc3339
        generateDurationSeconds := formatSeconds (verifyStartedAt.sub startedAt)
        verifyDurationMilliseconds := formatMilliseconds (now.sub verifyStartedAt) }

/-- What the file operations of one call answer: opening, writing the temporary
file, renaming it. -/
structure Io where
  openFails : Bool
  writeFails : Bool
  renameFails : Bool

/-- Both calls, under the lock: the state that was written, and the file. The
temporary file takes the place of the log only by the rename. -/
def Call.run (call : Call) (io : Io) (file : LogFile) :
    Except LogError ProofInfoState × LogFile :=
  if io.openFails then (.error .open_, file)
  else
    match loadState file with
    | .error e => (.error e, file)
    | .ok st =>
        let st' := setRecord st call.record
        if io.writeFails then (.error .writeTemp, file)
        else if io.renameFails then (.error .replace, file)
        else (.ok st', some (stateContent st'))

/-- The file after a sequence of calls; at first there is none. -/
def logAfter : List (Call × Io) → LogFile :=
  List.foldl (fun file c => (c.1.run c.2 file).2) none

/-! ## The values that are written -/

/-- A value of the log: a trimmed line of bounded length. -/
structure CleanValue (val : Text) : Prop where
  value : ValueText val
  short : byteLength val ≤ 1000

structure CleanRecord (rec : ProofRecord) : Prop where
  type : CleanValue rec.type
  status : CleanValue rec.status
  timestamp : CleanValue rec.timestamp
  generate : CleanValue rec.generateDurationSeconds
  verify : CleanValue rec.verifyDurationMilliseconds

structure Clean (st : ProofInfoState) : Prop where
  storageProof : CleanRecord st.storageProof
  windowPoSt : CleanRecord st.windowPoSt

namespace ProofLogLemmas

variable {t : Text}

/-- One byte and no white space, as all characters of numbers and times are. -/
def plainChar (c : Char) : Bool := !isSpace c && c.utf8Size == 1

def Plain (t : Text) : Prop := ∀ c ∈ t, plainChar c = true

theorem plainChar_of_isDigit {c : Char} (h : c.isDigit = true) : plainChar c = true := by
  have hsize : c.utf8Size = 1 := by
    have hle : c.val ≤ 57 := by
      simp only [Char.isDigit, Bool.and_eq_true, decide_eq_true_eq] at h
      exact h.2
    unfold Char.utf8Size
    rw [if_pos (UInt32.le_trans hle (by decide))]
  simp [plainChar, isSpace_of_isDigit h, hsize]

theorem Plain.append {t u : Text} (ht : Plain t) (hu : Plain u) : Plain (t ++ u) :=
  List.forall_mem_append.mpr ⟨ht, hu⟩

theorem Plain.cons {c : Char} (hc : plainChar c = true) (ht : Plain t) :
    Plain (c :: t) := List.forall_mem_cons.mpr ⟨hc, ht⟩

theorem plain_padInt {width : Nat} {i : Int} : Plain (padInt width i) := by
  intro c hc
  rcases mem_padInt hc with h | rfl
  · exact plainChar_of_isDigit h
  · decide

theorem plain_fixed3 (q : ℚ) : Plain (fixed3 q) := by
  intro c hc
  rcases mem_fixed3 hc with h | rfl | rfl
  · exact plainChar_of_isDigit h
  · decide
  · decide

theorem plain_formatZone (offset : Int) : Plain (formatZone offset) := by
  unfold formatZone
  split
  · intro c hc
    rw [List.mem_singleton.mp hc]; decide
  · refine Plain.cons ?_ (plain_padInt.append (Plain.cons (by decide) plain_padInt))
    split <;> decide

theorem plain_rfc3339 (t : Time) : Plain t.rfc3339 := by
  repeat first
    | exact plain_padInt
    | exact plain_formatZone _
    | refine Plain.append ?_ ?_
    | refine Plain.cons (by decide) ?_

theorem byteLength_plain (h : Plain t) : byteLength t = t.length := by
  induction t with
  | nil => rfl
  | cons c t ih =>
    have hc := h c List.mem_cons_self
    simp only [plainChar, Bool.and_eq_true, beq_iff_eq] at hc
    have hrest := ih fun d hd => h d (List.mem_cons_of_mem _ hd)
    simp only [byteLength, List.map_cons, List.sum_cons, List.length_cons, hc.2] at hrest ⊢
    omega

theorem Plain.no_space (h : Plain t) : ∀ c ∈ t, isSpace c = false := by
  intro c hc
  have := h c hc
  simp only [plainChar, Bool.and_eq_true, Bool.not_eq_true'] at this
  exact this.1

theorem cleanValue_of_plain (h : Plain t) (hlen : t.length ≤ 1000) : CleanValue t := by
  refine ⟨⟨fun hn => ?_, trimSpace_eq_self h.no_space⟩, byteLength_plain h ▸ hlen⟩
  exact absurd (h.no_space _ hn) (by decide)

/-! The lengths are bounded because the fields of a time are machine integers. -/

theorem civil_bounds (days : Int) (h : days.natAbs ≤ 2 ^ 64) :
    (civil days).1.natAbs < 10 ^ 20 ∧ (civil days).2.1.natAbs < 10 ^ 20 ∧
      (civil days).2.2.natAbs < 10 ^ 20 := by
  unfold civil
  dsimp only
  refine ⟨?_, ?_, ?_⟩
  · split <;> omega
  · split <;> omega
  · omega

theorem length_formatZone_le {offset : Int} (h : offset.natAbs ≤ 2 ^ 63) :
    (formatZone offset).length ≤ 60 := by
  unfold formatZone
  split
  · decide
  · have hzone : (offset.tdiv 60).natAbs ≤ 2 ^ 63 := by
      rw [Int.natAbs_tdiv]
      exact (Nat.div_le_self _ _).trans h
    generalize (offset.tdiv 60).natAbs = zone at hzone
    have hhour := length_padInt_le 2 20 ((zone / 60 : Nat)) (by decide)
      (by omega)
    have hmin := length_padInt_le 2 20 ((zone % 60 : Nat)) (by decide)
      (by omega)
    simp only [List.length_cons, List.length_append]
    omega

theorem natAbs_toInt_le (i : Int64) : i.toInt.natAbs ≤ 2 ^ 63 := by
  have hlo := Int64.le_toInt i
  have hhi := Int64.toInt_lt i
  omega

theorem length_rfc3339_le (t : Time) : t.rfc3339.length ≤ 1000 := by
  have hsec := natAbs_toInt_le t.sec
  have hoff := natAbs_toInt_le t.offset
  have hzone := length_formatZone_le hoff
  unfold Time.rfc3339
  generalize hlocal : t.sec.toInt + t.offset.toInt = local_
  obtain ⟨hy, hm, hd⟩ := civil_bounds (local_ / 86400) (by omega)
  have h₁ := length_padInt_le 4 20 _ (by decide) hy
  have h₂ := length_padInt_le 2 20 _ (by decide) hm
  have h₃ := length_padInt_le 2 20 _ (by decide) hd
  have h₄ := length_padInt_le 2 20 (local_ % 86400 / 3600) (by decide)
    (by omega)
  have h₅ := length_padInt_le 2 20 (local_ % 86400 % 3600 / 60) (by decide)
    (by omega)
  have h₆ := length_padInt_le 2 20 (local_ % 86400 % 60) (by decide)
    (by omega)
  simp only [List.length_cons, List.length_append]
  omega

theorem sub_bounds (t u : Time) : (t.sub u).natAbs ≤ 2 ^ 63 := by
  unfold Time.sub saturate
  split <;> omega

theorem abs_cast_le {i : Int} {n : Nat} (h : i.natAbs ≤ n) : |(i : ℚ)| ≤ n := by
  rw [← Int.cast_abs, Int.abs_eq_natAbs]
  exact_mod_cast h

variable {d : Int} (h : d.natAbs ≤ 2 ^ 63)
include h

theorem abs_tdiv_le (n : Int) : |((d.tdiv n : Int) : ℚ)| ≤ (2 ^ 63 : Nat) := by
  refine abs_cast_le ?_
  rw [Int.natAbs_tdiv]
  exact (Nat.div_le_self _ _).trans h

theorem length_formatSeconds_le : (formatSeconds d).length ≤ 1000 := by
  have hsec := abs_tdiv_le h (10 ^ 9)
  have hfrac : |((d.tmod (10 ^ 9) : Int) : ℚ) / 10 ^ 9| ≤ 1 := by
    have hmod : |((d.tmod (10 ^ 9) : Int) : ℚ)| ≤ (10 ^ 9 : Nat) := by
      refine abs_cast_le ?_
      rw [Int.natAbs_tmod]
      exact (Nat.mod_lt _ (by decide)).le
    rw [abs_div, abs_of_pos (by norm_num : (0 : ℚ) < 10 ^ 9), div_le_one (by norm_num)]
    exact_mod_cast hmod
  have hround := abs_float64_le (((d.tmod (10 ^ 9) : Int) : ℚ) / 10 ^ 9)
  have hsum := abs_float64_le
    (((d.tdiv (10 ^ 9) : Int) : ℚ) + float64 (((d.tmod (10 ^ 9) : Int) : ℚ) / 10 ^ 9))
  have htri := abs_add_le ((d.tdiv (10 ^ 9) : Int) : ℚ)
    (float64 (((d.tmod (10 ^ 9) : Int) : ℚ) / 10 ^ 9))
  refine (length_fixed3_le 30 (by decide) ?_).trans (by decide)
  norm_num at hsec ⊢
  linarith

theorem length_formatMilliseconds_le : (formatMilliseconds d).length ≤ 1000 := by
  have hms := abs_tdiv_le h 1000
  have hround := abs_float64_le ((d.tdiv 1000 : Int) : ℚ)
  have hquot := abs_float64_le (float64 ((d.tdiv 1000 : Int) : ℚ) / 1000)
  rw [abs_div, abs_of_pos (by norm_num : (0 : ℚ) < 1000)] at hquot
  refine (length_fixed3_le 30 (by decide) ?_).trans (by decide)
  norm_num at hms ⊢
  linarith

omit h

theorem cleanValue_of_all (h : t.all plainChar = true := by decide)
    (hlen : t.length ≤ 1000 := by decide) : CleanValue t :=
  cleanValue_of_plain (List.all_eq_true.mp h) hlen

theorem cleanValue_nil : CleanValue [] := cleanValue_of_all

theorem cleanValue_zero : CleanValue ['0'] := cleanValue_of_all

theorem cleanRecord_empty {pt : ProofType} (h : CleanValue pt) : CleanRecord (emptyRecord pt) :=
  ⟨h, cleanValue_nil, cleanValue_nil, cleanValue_zero, cleanValue_zero⟩

theorem cleanValue_storageProof : CleanValue storageProof := cleanValue_of_all

theorem cleanValue_windowPoSt : CleanValue windowPoSt := cleanValue_of_all

theorem cleanRecord_call {call : Call} (h : CleanValue call.record.type) :
    CleanRecord call.record := by
  cases call with
  | startProof pt now =>
    have hstatus : CleanValue statusProcessing := cleanValue_of_all
    exact
      { type := h
        status := hstatus
        timestamp := cleanValue_of_plain (plain_rfc3339 now) (length_rfc3339_le now)
        generate := cleanValue_zero
        verify := cleanValue_zero }
  | completeProof pt now startedAt verifyStartedAt =>
    have hstatus : CleanValue statusCompleted := cleanValue_of_all
    exact
      { type := h
        status := hstatus
        timestamp := cleanValue_of_plain (plain_rfc3339 now) (length_rfc3339_le now)
        generate := cleanValue_of_plain (plain_fixed3 _) (length_formatSeconds_le (sub_bounds _ _))
        verify :=
          cleanValue_of_plain (plain_fixed3 _) (length_formatMilliseconds_le (sub_bounds _ _)) }

theorem clean_setRecord {st : ProofInfoState} (h : Clean st) (call : Call) :
    Clean (setRecord st call.record) := by
  unfold setRecord
  split
  · next ht => exact ⟨cleanRecord_call (ht ▸ cleanValue_storageProof), h.windowPoSt⟩
  · split
    · next ht => exact ⟨h.storageProof, cleanRecord_call (ht ▸ cleanValue_windowPoSt)⟩
    · exact h

/-- A key of the log, all of one-byte characters. -/
def CleanKey (key : Text) : Prop :=
  key ≠ [] ∧ '=' ∉ key ∧ key.all plainChar = true ∧ key.length ≤ 1000

instance (key : Text) : Decidable (CleanKey key) := inferInstanceAs (Decidable (_ ∧ _))

theorem fieldText {key val : Text} (hkey : CleanKey key) (hval : CleanValue val) :
    FieldText (key, val) := by
  obtain ⟨hne, heq, hall, hlen⟩ := hkey
  have hplain : Plain key := List.all_eq_true.mp hall
  refine ⟨⟨hne, heq, hplain.no_space⟩, hval.value, ?_⟩
  have hsum : byteLength (fieldLine (some (key, val))) = byteLength key + (1 + byteLength val) := by
    simp [byteLength, fieldLine]
    rfl
  have hshort := hval.short
  rw [hsum, byteLength_plain hplain]
  unfold maxScanTokenSize
  omega

variable {rec : ProofRecord}

theorem fieldText_recordLines {pt : ProofType}
    (hpt : pt = storageProof ∨ pt = windowPoSt) (h : CleanRecord rec) {field : Text × Text}
    (hf : some field ∈ recordLines pt rec) : FieldText field := by
  simp only [recordLines, List.mem_cons, Option.some.injEq, List.not_mem_nil, or_false] at hf
  rcases hf with rfl | rfl | rfl | rfl | rfl
  all_goals refine fieldText (by rcases hpt with rfl | rfl <;> decide +kernel) ?_
  exacts [h.type, h.status, h.timestamp, h.generate, h.verify]

end ProofLogLemmas

open ProofLogLemmas

variable {file : LogFile} {st : ProofInfoState}

/-- The fields of a written state, in their order. -/
theorem readPairs_stateContent (h : Clean st) : readPairs (stateContent st) =
      some ((recordLines storageProof st.storageProof ++
        recordLines windowPoSt st.windowPoSt).filterMap id) := by
  unfold stateContent
  rw [readPairs_writeLines (by simp)]
  · rfl
  · intro field hf
    rcases List.mem_append.mp hf with hf | hf
    · exact fieldText_recordLines (.inl rfl) h.storageProof hf
    · rcases List.mem_cons.mp hf with hf | hf
      · cases hf
      · exact fieldText_recordLines (.inr rfl) h.windowPoSt hf

/-- The proof type whose keys stand in this section. -/
def Section.proofType : Section → ProofType
  | .storageProof => Prooflog.storageProof
  | .windowPoSt => Prooflog.windowPoSt

/-- Every key that is written is a case of the switch. -/
theorem lookup_key (s : Section) :
    ∀ e ∈ [("_type", RecordField.type), ("_status", .status), ("_timestamp", .timestamp),
        ("_generate_duration_seconds", .generateDuration),
        ("_verify_duration_milliseconds", .verifyDuration)],
      fieldOfKey.lookup (s.proofType ++ e.1.toList) = some (s, e.2) := by
  cases s <;> decide +kernel

/-- The lines of a record set all its fields. -/
theorem foldl_recordLines (s : Section) (st : ProofInfoState) (rec : ProofRecord) :
    ((recordLines s.proofType rec).filterMap id).foldl loadPair st = match s with
      | .storageProof => { st with storageProof := rec }
      | .windowPoSt => { st with windowPoSt := rec } := by
  have hkeys := lookup_key s
  simp only [List.forall_mem_cons] at hkeys
  obtain ⟨h₁, h₂, h₃, h₄, h₅, -⟩ := hkeys
  cases s <;>
    simp only [recordLines, List.filterMap_cons, List.filterMap_nil, id, List.foldl_cons,
      List.foldl_nil, loadPair, h₁, h₂, h₃, h₄, h₅, ProofRecord.set]

theorem loadState_writeState (h : Clean st) : loadState (some (stateContent st)) = .ok st := by
  show loadContent _ = _
  unfold loadContent
  rw [readPairs_stateContent h]
  have hstorage := foldl_recordLines .storageProof emptyState st.storageProof
  exact congrArg Except.ok ((congrArg (List.foldl loadPair · _) hstorage).trans
    (foldl_recordLines .windowPoSt _ st.windowPoSt))

variable (file st) in
/-- The state of the log: what is loaded from the file. -/
structure LogInv : Prop where
  clean : Clean st
  loaded : loadState file = .ok st

/-- One call: either it fails and the file stays, or the file holds the new
state. -/
theorem LogInv.run (h : LogInv file st) (call : Call) (io : Io) :
    (∃ e, call.run io file = (.error e, file)) ∨
    call.run io file =
      (.ok (setRecord st call.record), some (stateContent (setRecord st call.record))) := by
  unfold Call.run
  rw [h.loaded]
  dsimp only
  by_cases ho : io.openFails = true
  · exact .inl ⟨_, if_pos ho⟩
  · rw [if_neg ho]
    by_cases hw : io.writeFails = true
    · exact .inl ⟨_, if_pos hw⟩
    · rw [if_neg hw]
      by_cases hr : io.renameFails = true
      · exact .inl ⟨_, if_pos hr⟩
      · exact .inr (if_neg hr)

theorem LogInv.set (h : LogInv file st) (call : Call) :
    LogInv (some (stateContent (setRecord st call.record))) (setRecord st call.record) :=
  have hclean := clean_setRecord h.clean call
  ⟨hclean, loadState_writeState hclean⟩

theorem LogInv.step (h : LogInv file st) (call : Call)
    (io : Io) : ∃ st', LogInv (call.run io file).2 st' := by
  rcases h.run call io with ⟨e, hrun⟩ | hrun
  · rw [hrun]; exact ⟨st, h⟩
  · rw [hrun]; exact ⟨_, h.set call⟩

theorem exists_logInv (calls : List (Call × Io)) : ∃ st, LogInv (logAfter calls) st := by
  have hrun : ∀ file, (∃ st, LogInv file st) →
      ∃ st, LogInv (calls.foldl (fun file c => (c.1.run c.2 file).2) file) st := by
    induction calls with
    | nil => exact fun file h => h
    | cons c calls ih =>
      rintro file ⟨st, h⟩
      exact ih _ (h.step c.1 c.2)
  exact hrun none ⟨emptyState, ⟨cleanRecord_empty cleanValue_storageProof,
    cleanRecord_empty cleanValue_windowPoSt⟩, rfl⟩

/-- A record takes the place of the one of its type only. -/
theorem setRecord_other :
    (rec.type ≠ storageProof → (setRecord st rec).storageProof = st.storageProof) ∧
      (rec.type ≠ windowPoSt → (setRecord st rec).windowPoSt = st.windowPoSt) := by
  unfold setRecord
  constructor <;> intro h <;> rw [if_neg h] <;> split <;> rfl

end OpenDsn.Prooflog
