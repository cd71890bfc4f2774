import OpenDsn.Prooflog.ProofLog

/-!
# The proofs that the API shows

`cmd/opendsn-api/handlers.go`: `parseProofInfo` reads the proof log of a miner,
its own file or one fetched over HTTP.

* `parseProofInfo_eq`: on every content it reads what the miner itself would
  load;
* `calls_read_back`: after every call of the proof log, both read the state
  that was written.
-/

namespace OpenDsn.Api

open Lib Lib.Text Prooflog

/-- `NodeIP` is filled in by the caller. -/
structure ProofInfo where
  nodeIP : Text
  proofType : Text
  status : Text
  timestamp : Text
  generateDurationSeconds : Text
  verifyDurationMilliseconds : Text

def ProofInfo.set (info : ProofInfo) (val : Text) : RecordField → ProofInfo
  | .type => { info with proofType := val }
  | .status => { info with status := val }
  | .timestamp => { info with timestamp := val }
  | .generateDuration => { info with generateDurationSeconds := val }
  | .verifyDuration => { info with verifyDurationMilliseconds := val }

/-- The map `records`, which has two fixed keys. -/
structure ProofRecords where
  storageProof : ProofInfo
  windowPost : ProofInfo

def emptyInfo (pt : ProofType) : ProofInfo :=
  { nodeIP := []
    proofType := pt
    status := []
    timestamp := []
    generateDurationSeconds := ['0']
    verifyDurationMilliseconds := ['0'] }

def emptyRecords : ProofRecords :=
  { storageProof := emptyInfo "storage_proof".toList
    windowPost := emptyInfo "window_post".toList }

def parsePair (records : ProofRecords) (pair : Text × Text) : ProofRecords :=
  match fieldOfKey.lookup pair.1 with
  | some (.storageProof, f) =>
      { records with storageProof := records.storageProof.set pair.2 f }
  | some (.windowPoSt, f) => { records with windowPost := records.windowPost.set pair.2 f }
  | none => records

/-- `none` is the scanner's error. -/
def parseProofInfo (content : Text) : Option (List ProofInfo) :=
  (readPairs content).map fun pairs =>
    let records := pairs.foldl parsePair emptyRecords
    [records.storageProof, records.windowPost]

/-- The values of a record of the log. -/
def ofRecord (rec : ProofRecord) : ProofInfo :=
  { nodeIP := []
    proofType := rec.type
    status := rec.status
    timestamp := rec.timestamp
    generateDurationSeconds := rec.generateDurationSeconds
    verifyDurationMilliseconds := rec.verifyDurationMilliseconds }

namespace ProofInfoLemmas

def ofState (st : ProofInfoState) : ProofRecords :=
  ⟨ofRecord st.storageProof, ofRecord st.windowPoSt⟩

theorem set_ofRecord (rec : ProofRecord) (val : Text) (f : RecordField) :
    (ofRecord rec).set val f = ofRecord (rec.set val f) := by
  cases f <;> rfl

theorem parsePair_ofState (st : ProofInfoState) (pair : Text × Text) :
    parsePair (ofState st) pair = ofState (loadPair st pair) := by
  unfold parsePair loadPair
  cases fieldOfKey.lookup pair.1 with
  | none => rfl
  | some target =>
    obtain ⟨sec, f⟩ := target
    cases sec with
    | storageProof | windowPoSt => simp only [ofState, set_ofRecord]

theorem foldl_parsePair (pairs : List (Text × Text)) (st : ProofInfoState) :
    pairs.foldl parsePair (ofState st) = ofState (pairs.foldl loadPair st) := by
  induction pairs generalizing st with
  | nil => rfl
  | cons pair pairs ih => rw [List.foldl_cons, parsePair_ofState, ih, List.foldl_cons]

end ProofInfoLemmas

open ProofInfoLemmas

theorem parseProofInfo_eq {content : Text} {st : ProofInfoState}
    (h : loadState (some content) = .ok st) :
    parseProofInfo content = some [ofRecord st.storageProof, ofRecord st.windowPoSt] := by
  unfold parseProofInfo
  change loadContent content = _ at h
  unfold loadContent at h
  cases hp : readPairs content with
  | none => rw [hp] at h; cases h
  | some pairs =>
    rw [hp] at h
    cases h
    have hfold : pairs.foldl parsePair emptyRecords = ofState (pairs.foldl loadPair emptyState) :=
      foldl_parsePair pairs emptyState
    rw [Option.map_some]
    simp only [hfold]
    rfl

/-- For every sequence of calls: a call that returns has written a state which
is loaded back, with the record of every other proof type as it was, and from
which the API reads the values of both records. A call that fails leaves the
file as it was. -/
theorem calls_read_back (calls : List (Call × Io)) (call : Call) (io : Io) :
    ∃ st, loadState (logAfter calls) = .ok st ∧ match call.run io (logAfter calls) with
      | (.error _, file) => file = logAfter calls
      | (.ok written, file) =>
          loadState file = .ok written ∧
          (call.record.type ≠ storageProof → written.storageProof = st.storageProof) ∧
          (call.record.type ≠ windowPoSt → written.windowPoSt = st.windowPoSt) ∧
          file.bind parseProofInfo =
            some [ofRecord written.storageProof, ofRecord written.windowPoSt] := by
  obtain ⟨st, hinv⟩ := exists_logInv calls
  refine ⟨st, hinv.loaded, ?_⟩
  rcases hinv.run call io with ⟨e, hrun⟩ | hrun
  · rw [hrun]
  · rw [hrun]
    have hset := (hinv.set call).loaded
    exact ⟨hset, setRecord_other.1, setRecord_other.2, parseProofInfo_eq hset⟩

end OpenDsn.Api
