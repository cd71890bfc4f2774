import Mathlib.Data.List.AList
import OpenDsn.Lib.Text
import OpenDsn.Lib.Walk

/-!
# Version metadata of the client commands

`cli/client.go` and `cli/client_retr.go`: `client deal --create` and
`client deal --update --previous` write one file `<cid>_meta` per version in
the working directory, with the CID of the previous version on line 1 and the
one of the next version on line 2; `retrieve-version` follows the first lines,
`list-version` the second ones.

File operations can fail, and a failed write can leave anything in its file.

* `dealStep_effect`: on well-formed metadata a successful command sets one or
  two pointers and leaves every other version as it was;
* `retrieveVersionChain_returns`, `listVersion_returns`: the two walks end on
  every directory, also on one with a cycle of pointers;
* `retrieveVersionChain_ok_iff`, `listVersion_ok_iff`: they succeed exactly on
  chains of pointers.
-/

namespace OpenDsn.Cli

open Lib Lib.Text List Option

/-! ## The files -/

/-- The working directory: file names and contents. -/
abbrev Dir := AList (fun _ : Text => Text)

/-- What stands in the metadata for no version. -/
def nullText : Text := ['N', 'U', 'L', 'L']

def filerootsPath : Text :=
  ['f', 'i', 'l', 'e', 'r', 'o', 'o', 't', 's', '.', 'l', 'o', 'g']

def metaPath (cid : Text) : Text := cid ++ ['_', 'm', 'e', 't', 'a']

/-- The shape of a CID's text: a multibase encoding, which has no white space
and is not `NULL`. -/
structure CidText (t : Text) : Prop where
  ne_nil : t ≠ []
  ne_null : t ≠ nullText
  no_space : ∀ c ∈ t, isSpace c = false

/-- `cid.Parse` of go-cid: only whether it accepts a text matters here. -/
structure CidParser where
  accepts : Text → Bool
  cidText : ∀ t, accepts t = true → CidText t

variable {cids : CidParser}

/-! ## `client deal` -/

/-- The file operations of the command, in the order of `--create`, then of
`--update`. -/
inductive FileOp
  | openRoots
  | writeRoots
  | closeRoots
  | read (path : Text)
  | write (path : Text)

/-- The answer of the operating system. A failed write leaves `left` in the
file, or the file as it was. -/
inductive IoResult
  | done
  | failed (left : Option Text)

inductive DealError
  /-- "--create and --update cannot be used together" -/
  | createAndUpdate
  /-- "--previous cannot be used when --create is set" -/
  | previousWithCreate
  /-- "--previous must be provided when --update is set" -/
  | previousRequired
  | dataCid
  | deal
  | io (op : FileOp)
  /-- "metadata file %s is invalid: expected at least 2 lines" -/
  | shortMeta (path : Text)
  | encoder

/-- A command that fails keeps the files it has written. -/
abbrev DealM := ExceptT DealError (StateM Dir)

structure DealArgs where
  create : Bool
  update : Bool
  previous : Text
  dataCid : Text

/-- What the command meets outside: the file system, whether the remaining
arguments are valid and the node starts the deal, and the CID encoder. -/
structure DealEnv where
  io : FileOp → IoResult
  deal : Bool
  encoder : Bool

structure DealCall where
  env : DealEnv
  args : DealArgs

def ensure (b : Bool) (e : DealError) : DealM Unit := if b then pure () else throw e

section

variable (io : FileOp → IoResult)

/-- One file operation on `path`, which then holds `content dir`. -/
def fileOp (op : FileOp) (path : Text) (content : Dir → Text) : DealM Unit := fun dir =>
  match io op with
  | .done => (.ok (), dir.insert path (content dir))
  | .failed none => (.error (.io op), dir)
  | .failed (some left) => (.error (.io op), dir.insert path left)

/-- `os.WriteFile`. -/
def writeFile (path content : Text) : DealM Unit :=
  fileOp io (.write path) path fun _ => content

/-- `os.ReadFile`, which also fails when there is no such file. -/
def readFile (path : Text) : DealM Text := fun dir =>
  match io (.read path), dir.lookup path with
  | .done, some content => (.ok content, dir)
  | _, _ => (.error (.io (.read path)), dir)

/-- The root CIDs logged so far; opening with `O_CREATE` makes the file. -/
def roots (dir : Dir) : Text := (dir.lookup filerootsPath).getD []

def recordCreate (dataCid : Text) : DealM Unit := do
  fileOp io .openRoots filerootsPath roots
  fileOp io .writeRoots filerootsPath fun dir => roots dir ++ (dataCid ++ ['\n'])
  fileOp io .closeRoots filerootsPath roots
  writeFile io (metaPath dataCid) (joinLines [nullText, nullText])

def recordUpdate (previous dataCid : Text) : DealM Unit := do
  let content ← readFile io (metaPath previous)
  match contentLines content with
  | line0 :: _ :: rest =>
      writeFile io (metaPath previous) (joinLines (line0 :: dataCid :: rest))
      writeFile io (metaPath dataCid) (joinLines [previous, nullText])
  | _ => throw (.shortMeta (metaPath previous))

/-- The metadata part of the command; `--create` and `--update` exclude each
other. -/
def recordVersion (args : DealArgs) : DealM Unit :=
  if args.create then recordCreate io args.dataCid
  else if args.update then recordUpdate io args.previous args.dataCid
  else pure ()

end

/-- `clientDealCmd`. -/
def clientDeal (cids : CidParser) (call : DealCall) : DealM Unit := do
  ensure (!(call.args.create && call.args.update)) .createAndUpdate
  ensure (!(call.args.create && call.args.previous ≠ [])) .previousWithCreate
  ensure (!(call.args.update && call.args.previous = [])) .previousRequired
  ensure (cids.accepts call.args.dataCid) .dataCid
  ensure call.env.deal .deal
  recordVersion call.env.io call.args
  ensure call.env.encoder .encoder

/-- The step of a run of successful commands. -/
def dealStep (cids : CidParser) (dir : Dir) (call : DealCall) : Option Dir :=
  match clientDeal cids call dir with
  | (.ok _, dir') => some dir'
  | (.error _, _) => none

/-! ## The walks -/

inductive MetaError
  /-- "parsing target dataCid", "parsing root cid" -/
  | badCid
  /-- "root cid cannot be empty" -/
  | emptyRoot
  /-- "detected cycle in version metadata at cid %s" -/
  | cycle (cid : Text)
  /-- "reading metadata file %s", "reading %s" -/
  | missing (path : Text)
  /-- "metadata file %s is invalid: expected at least 2 lines" -/
  | short (path : Text)
  /-- "metadata file %s is invalid: first (second) line is empty" -/
  | emptyLine (path : Text)
  /-- "metadata file %s has invalid previous (head) cid %q" -/
  | badPointer (path cid : Text)
deriving DecidableEq

/-- Lines 1 and 2 of a version's metadata file. -/
def readMeta (dir : Dir) (cid : Text) : Except MetaError (Text × Text) :=
  match dir.lookup (metaPath cid) with
  | none => .error (.missing (metaPath cid))
  | some content =>
      match contentLines content with
      | line0 :: line1 :: _ => .ok (line0, line1)
      | _ => .error (.short (metaPath cid))

section

variable (cids : CidParser) (dir : Dir)

/-- The checks one round of either walk makes on the line it follows. -/
def checkPointer (path line : Text) : Except MetaError (Option Text) :=
  let cid := trimSpace line
  if cid = [] then .error (.emptyLine path)
  else if cid = nullText then .ok none
  else if cids.accepts cid then .ok (some cid)
  else .error (.badPointer path cid)

/-- The previous version, from line 1. -/
def previousCid (cid : Text) : Except MetaError (Option Text) :=
  match readMeta dir cid with
  | .error e => .error e
  | .ok lines => checkPointer cids (metaPath cid) lines.1

/-- The next version, from line 2. -/
def nextCid (cid : Text) : Except MetaError (Option Text) :=
  match readMeta dir cid with
  | .error e => .error e
  | .ok lines => checkPointer cids (metaPath cid) lines.2

/-- Enough rounds for either walk: one per file and one more. -/
def rounds : Nat := dir.keys.length + 1

/-- The chain `retrieve-version` resolves, from the root to the target. -/
def retrieveVersionChain (target : Text) : Option (Except MetaError (List Text)) :=
  if cids.accepts target then
    follow (previousCid cids dir) .cycle (rounds dir) [] target
  else some (.error .badCid)

/-- The versions `list-version` prints, the root first; `none` inside for a
root without metadata, which is reported and is no error. -/
def listVersion (arg : Text) : Option (Except MetaError (Option (List Text))) :=
  let root := trimSpace arg
  if root = [] then some (.error .emptyRoot)
  else if !cids.accepts root then some (.error .badCid)
  else if metaPath root ∉ dir then some (.ok none)
  else
    (follow (nextCid cids dir) .cycle (rounds dir) [] root).map
      fun r => r.map fun visited => some visited.reverse

end

/-! ## What a successful command did -/

namespace MetadataLemmas

variable {dir dir' : Dir} {u : Unit} {path c : Text}

theorem bind_eq {α β : Type} (x : DealM α) (f : α → DealM β) (dir : Dir) :
    (x >>= f) dir = match x dir with
      | (.ok a, dir') => f a dir'
      | (.error e, dir') => (.error e, dir') := by
  change (StateT.bind x.run (ExceptT.bindCont f) : StateM Dir _) dir = _
  unfold StateT.bind
  rcases hx : x dir with ⟨r, dir'⟩
  rw [show x.run dir = _ from hx]
  cases r with
  | ok a | error e => rfl

theorem bind_ok {α β : Type} {x : DealM α} {f : α → DealM β} {dir'' : Dir} {b : β}
    (h : (x >>= f) dir = (.ok b, dir'')) :
    ∃ a dir', x dir = (.ok a, dir') ∧ f a dir' = (.ok b, dir'') := by
  rw [bind_eq] at h
  split at h
  · next a dir' hx => exact ⟨a, dir', hx, h⟩
  · cases h

theorem ensure_ok {b : Bool} {e : DealError}
    (h : ensure b e dir = (.ok u, dir')) : b = true ∧ dir' = dir := by
  unfold ensure at h
  split at h
  · next hb => cases h; exact ⟨hb, rfl⟩
  · cases h

variable {io : FileOp → IoResult}

theorem fileOp_ok {op : FileOp} {content : Dir → Text}
    (h : fileOp io op path content dir = (.ok u, dir')) :
    dir' = dir.insert path (content dir) := by
  unfold fileOp at h
  split at h <;> cases h
  rfl

theorem metaPath_ne_filerootsPath (x : Text) : metaPath x ≠ filerootsPath := by
  intro h
  have hlast : (metaPath x).getLast? = filerootsPath.getLast? := by rw [h]
  simp [metaPath, filerootsPath] at hlast

theorem lookup_insert_meta (dir : Dir) (c x content : Text) :
    (dir.insert (metaPath c) content).lookup (metaPath x) =
      if x = c then some content else dir.lookup (metaPath x) := by
  split
  · next h => rw [h, AList.lookup_insert]
  · next h => exact AList.lookup_insert_ne fun hp => h (append_cancel_right hp)

theorem recordUpdate_ok {p : Text} (h : recordUpdate io p c dir = (.ok u, dir')) :
    ∃ content line0 line1 rest, dir.lookup (metaPath p) = some content ∧
      contentLines content = line0 :: line1 :: rest ∧
      dir' = (dir.insert (metaPath p) (joinLines (line0 :: c :: rest))).insert (metaPath c)
        (joinLines [p, nullText]) := by
  obtain ⟨content, d1, hread, hwrite⟩ := bind_ok h
  unfold readFile at hread
  split at hread
  swap
  · cases hread
  next hl =>
  cases hread
  generalize hlines : contentLines content = lines at hwrite
  match lines, hlines, hwrite with
  | [], _, hwrite => cases hwrite
  | [_], _, hwrite => cases hwrite
  | line0 :: line1 :: rest, hlines, hwrite =>
    obtain ⟨_, d2, h1, h2⟩ := bind_ok hwrite
    refine ⟨content, line0, line1, rest, hl, hlines, ?_⟩
    rw [fileOp_ok h2, fileOp_ok h1]

end MetadataLemmas

open MetadataLemmas

theorem dealStep_ok {dir dir' : Dir} {call : DealCall}
    (h : dealStep cids dir call = some dir') :
    (call.args.create = false ∨ call.args.update = false) ∧ cids.accepts call.args.dataCid = true ∧
      ∃ u, recordVersion call.env.io call.args dir = (.ok u, dir') := by
  unfold dealStep at h
  split at h
  · next dir'' hd =>
    cases h
    obtain ⟨_, d1, h1, hd1⟩ := bind_ok hd
    obtain ⟨_, d2, h2, hd2⟩ := bind_ok hd1
    obtain ⟨_, d3, h3, hd3⟩ := bind_ok hd2
    obtain ⟨_, d4, h4, hd4⟩ := bind_ok hd3
    obtain ⟨_, d5, h5, hd5⟩ := bind_ok hd4
    obtain ⟨u, d6, h6, hd6⟩ := bind_ok hd5
    obtain ⟨hflags, rfl⟩ := ensure_ok h1
    obtain ⟨-, rfl⟩ := ensure_ok h2
    obtain ⟨-, rfl⟩ := ensure_ok h3
    obtain ⟨hcid, rfl⟩ := ensure_ok h4
    obtain ⟨-, rfl⟩ := ensure_ok h5
    obtain ⟨-, rfl⟩ := ensure_ok hd6
    exact ⟨by simpa using hflags, hcid, u, h6⟩
  · cases h

/-! ## What a failed command leaves -/

/-- A failed operation has left in the file what the file held. -/
def Leaves (dir : Dir) (path : Text) (left : Option Text) : Prop :=
  ∀ content ∈ left, dir.lookup path = some content

/-- `--create` fails before it has logged the root, or succeeds, unless the failure itself puts
the old content back. -/
def CreateKeeps (io : FileOp → IoResult) (dataCid : Text) (dir : Dir) : Prop :=
  match io .openRoots, io .writeRoots, io .closeRoots, io (.write (metaPath dataCid)) with
  | .failed left, _, _, _ => Leaves dir filerootsPath left
  | .done, .failed left, _, _ => filerootsPath ∈ dir ∧ Leaves dir filerootsPath left
  | .done, .done, .failed left, _ => left ≠ none ∧ Leaves dir filerootsPath left
  | .done, .done, .done, r => r = .done

/-- `--update` fails before it has changed the previous version's metadata, or succeeds, unless
that metadata has the pointer already. -/
def UpdateKeeps (io : FileOp → IoResult) (previous dataCid : Text) (dir : Dir) : Prop :=
  ∀ content, dir.lookup (metaPath previous) = some content →
    io (.read (metaPath previous)) = .done →
    match contentLines content, io (.write (metaPath previous)), io (.write (metaPath dataCid)) with
    | _ :: _ :: _, .failed left, _ => Leaves dir (metaPath previous) left
    | line0 :: _ :: rest, .done, .failed left =>
        content = joinLines (line0 :: dataCid :: rest) ∧ Leaves dir (metaPath dataCid) left
    | _, _, _ => True

/-- If it is an error, every file is as it was. -/
def Keeps (dir : Dir) (r : Except DealError Unit × Dir) : Prop :=
  ∀ e dir', r = (.error e, dir') → ∀ path, dir'.lookup path = dir.lookup path

namespace MetadataLemmas

variable {dir : Dir} {io : FileOp → IoResult} {e : DealError}

theorem keeps_error {d : Dir} :
    Keeps dir (.error e, d) ↔ ∀ path, d.lookup path = dir.lookup path :=
  ⟨fun h => h e d rfl, fun h _ _ heq => by cases heq; exact h⟩

theorem lookup_insert_iff {d : Dir} {p content : Text} :
    (∀ path, (d.insert p content).lookup path = dir.lookup path) ↔
      dir.lookup p = some content ∧ ∀ path, path ≠ p → d.lookup path = dir.lookup path := by
  constructor
  · intro h
    exact ⟨(h p).symm.trans (AList.lookup_insert _), fun path hne =>
      (AList.lookup_insert_ne hne).symm.trans (h path)⟩
  · rintro ⟨hp, hother⟩ path
    by_cases hpath : path = p
    · rw [hpath, AList.lookup_insert, hp]
    · rw [AList.lookup_insert_ne hpath, hother path hpath]

theorem keeps_insert {p content : Text} :
    Keeps dir (.error e, dir.insert p content) ↔ dir.lookup p = some content := by
  rw [keeps_error, lookup_insert_iff]
  exact and_iff_left fun _ _ => rfl

theorem recordCreate_keeps_iff (c : Text) :
    Keeps dir (recordCreate io c dir) ↔ CreateKeeps io c dir := by
  have hroots : ∀ content, roots (dir.insert filerootsPath content) = content :=
    fun content => by rw [roots, AList.lookup_insert]; rfl
  have hmem : dir.lookup filerootsPath = some (roots dir) ↔ filerootsPath ∈ dir := by
    rw [← AList.lookup_isSome, roots]
    cases dir.lookup filerootsPath <;> simp
  have hlogged : dir.lookup filerootsPath ≠ some (roots dir ++ (c ++ ['\n'])) := by
    rw [roots]
    cases dir.lookup filerootsPath <;> simp
  unfold recordCreate CreateKeeps writeFile
  simp only [bind_eq, fileOp]
  rcases io .openRoots with _ | _ | left
  · rcases io .writeRoots with _ | _ | left
    · rcases io .closeRoots with _ | _ | left
      · rcases io (.write (metaPath c)) with _ | _ | left
        · exact iff_of_true nofun rfl
        · simp [AList.insert_insert, hroots, keeps_insert, hlogged]
        · refine iff_of_false (fun h => hlogged ?_) nofun
          have hfile := keeps_error.mp h filerootsPath
          simpa [AList.insert_insert, hroots, AList.lookup_insert_ne
            (metaPath_ne_filerootsPath c).symm] using hfile.symm
      · simp [AList.insert_insert, hroots, keeps_insert, hlogged]
      · simp [AList.insert_insert, keeps_insert, Leaves]
    · simp [keeps_insert, hmem, Leaves]
    · simp only [AList.insert_insert, keeps_insert, Leaves, mem_def, some_inj, forall_eq']
      exact ⟨fun h => ⟨AList.lookup_isSome.mp (h ▸ rfl), h⟩, And.right⟩
  · simp [keeps_error, Leaves]
  · simp [keeps_insert, Leaves]

theorem recordUpdate_keeps_iff (p c : Text) :
    Keeps dir (recordUpdate io p c dir) ↔ UpdateKeeps io p c dir := by
  unfold recordUpdate UpdateKeeps
  rw [bind_eq]
  unfold readFile
  cases io (.read (metaPath p)) with
  | failed left => exact iff_of_true (keeps_error.mpr fun _ => rfl) nofun
  | done =>
    cases hl : dir.lookup (metaPath p) with
    | none => exact iff_of_true (keeps_error.mpr fun _ => rfl) nofun
    | some content =>
      simp only [some_inj, forall_eq', forall_const]
      rcases contentLines content with _ | ⟨line0, _ | ⟨line1, rest⟩⟩
      · exact iff_of_true (keeps_error.mpr fun _ => rfl) trivial
      · exact iff_of_true (keeps_error.mpr fun _ => rfl) trivial
      simp only [writeFile, bind_eq, fileOp]
      rcases hprev : io (.write (metaPath p)) with _ | _ | left
      · rcases hnew : io (.write (metaPath c)) with _ | _ | left
        · exact iff_of_true nofun trivial
        · simp [keeps_insert, hl, Leaves]
        · have hne : metaPath p ≠ metaPath c := fun h => by
            rw [h, hnew] at hprev
            cases hprev
          rw [keeps_error, lookup_insert_iff, and_comm]
          simp only [Leaves, mem_def, some_inj, forall_eq']
          refine and_congr_left fun _ => ⟨fun h => ?_, fun h path _ => ?_⟩
          · have hsame := h _ hne
            rw [AList.lookup_insert, hl] at hsame
            exact (some.inj hsame).symm
          · exact lookup_insert_iff.mpr ⟨h ▸ hl, fun _ _ => rfl⟩ path
      · simp [keeps_error, Leaves]
      · simp [keeps_insert, Leaves]

end MetadataLemmas

/-- What a metadata file says: the neighbours of a version. -/
structure VersionMeta (cids : CidParser) where
  prev : Option Text
  next : Option Text
  prev_cid : ∀ c ∈ prev, cids.accepts c = true
  next_cid : ∀ c ∈ next, cids.accepts c = true

def pointerText (o : Option Text) : Text := o.getD nullText

def VersionMeta.content {cids : CidParser} (m : VersionMeta cids) : Text :=
  joinLines [pointerText m.prev, pointerText m.next]

/-- Every metadata file belongs to a CID and holds a `VersionMeta`. -/
def WellFormed (cids : CidParser) (dir : Dir) : Prop :=
  ∀ c content, dir.lookup (metaPath c) = some content →
    cids.accepts c = true ∧ ∃ m : VersionMeta cids, content = m.content

namespace MetadataLemmas

variable {cids : CidParser} {dir dir' : Dir} {c p : Text}

variable {m : VersionMeta cids} {o : Option Text}

theorem pointerText_ne_nil (h : ∀ c ∈ o, cids.accepts c = true) : pointerText o ≠ [] := by
  cases o with
  | none => decide
  | some c => exact (cids.cidText c (h c rfl)).ne_nil

theorem pointerText_no_space (h : ∀ c ∈ o, cids.accepts c = true) :
    ∀ ch ∈ pointerText o, isSpace ch = false := by
  cases o with
  | none => exact no_space_of_any (by decide)
  | some c => exact (cids.cidText c (h c rfl)).no_space

theorem contentLines_content :
    contentLines m.content = [pointerText m.prev, pointerText m.next] := by
  have hspace : ∀ l ∈ [pointerText m.prev] ++ [pointerText m.next], ∀ ch,
      isSpace ch = true → ch ∉ l := by
    intro l hl ch hch hmem
    have hfalse : isSpace ch = false := by
      rcases mem_cons.mp hl with rfl | hl
      · exact pointerText_no_space m.prev_cid ch hmem
      · obtain rfl := mem_singleton.mp hl
        exact pointerText_no_space m.next_cid ch hmem
    rw [hch] at hfalse
    cases hfalse
  have hcr : isSpace '\r' = true := by decide
  have hnl : isSpace '\n' = true := by decide
  have hcontent : m.content = joinLines ([pointerText m.prev] ++ [pointerText m.next]) := rfl
  rw [hcontent, contentLines_joinLines (fun l hl => hspace l hl '\n' hnl)
    (fun l hl => hspace l hl '\r' hcr) (pointerText_ne_nil m.next_cid)]
  rfl

theorem checkPointer_pointerText (h : ∀ c ∈ o, cids.accepts c = true)
    (path : Text) : checkPointer cids path (pointerText o) = .ok o := by
  unfold checkPointer
  rw [trimSpace_eq_self (pointerText_no_space h), if_neg (pointerText_ne_nil h)]
  cases o with
  | none => rfl
  | some c =>
    show (if c = nullText then _ else if cids.accepts c = true then _ else _) = _
    rw [if_neg (cids.cidText c (h c rfl)).ne_null, if_pos (h c rfl)]
    rfl

section

variable (h : dir.lookup (metaPath c) = some m.content)
include h

theorem readMeta_content : readMeta dir c = .ok (pointerText m.prev, pointerText m.next) := by
  unfold readMeta
  simp only [h, contentLines_content]

theorem previousCid_content : previousCid cids dir c = .ok m.prev := by
  unfold previousCid
  rw [readMeta_content h]
  exact checkPointer_pointerText m.prev_cid _

theorem nextCid_content : nextCid cids dir c = .ok m.next := by
  unfold nextCid
  rw [readMeta_content h]
  exact checkPointer_pointerText m.next_cid _

end

section

variable (h : dir'.lookup (metaPath c) = dir.lookup (metaPath c))
include h

theorem readMeta_congr : readMeta dir' c = readMeta dir c := by
  unfold readMeta
  rw [h]

theorem previousCid_congr : previousCid cids dir' c = previousCid cids dir c := by
  unfold previousCid
  rw [readMeta_congr h]

theorem nextCid_congr : nextCid cids dir' c = nextCid cids dir c := by
  unfold nextCid
  rw [readMeta_congr h]

end

theorem insert_other {content x : Text} (h : x ≠ c) :
    (dir.insert (metaPath c) content).lookup (metaPath x) = dir.lookup (metaPath x) := by
  rw [lookup_insert_meta, if_neg h]

theorem insert_self {content : Text} :
    (dir.insert (metaPath c) content).lookup (metaPath c) = some content := by
  rw [lookup_insert_meta, if_pos rfl]

/-- Writing a version's metadata sets its two pointers. -/
theorem repoint_previous (m : VersionMeta cids) :
    Repoint (previousCid cids dir) c m.prev
      (previousCid cids (dir.insert (metaPath c) m.content)) :=
  ⟨previousCid_content insert_self, fun _ hx => previousCid_congr (insert_other hx)⟩

theorem repoint_next (m : VersionMeta cids) :
    Repoint (nextCid cids dir) c m.next
      (nextCid cids (dir.insert (metaPath c) m.content)) :=
  ⟨nextCid_content insert_self, fun _ hx => nextCid_congr (insert_other hx)⟩

theorem wellFormed_insert (hwf : WellFormed cids dir) (hc : cids.accepts c = true)
    (m : VersionMeta cids) : WellFormed cids (dir.insert (metaPath c) m.content) := by
  intro x content hx
  rw [lookup_insert_meta] at hx
  split at hx
  · next hxc => cases hx; exact ⟨hxc ▸ hc, m, rfl⟩
  · exact hwf x content hx

end MetadataLemmas

/-- What a successful command did to the pointers, besides keeping the
metadata well formed. -/
inductive DealEffect (cids : CidParser) (dir dir' : Dir) (args : DealArgs) : Prop
  | create (hcreate : args.create = true) (hupdate : args.update = false)
      (hprev : Repoint (previousCid cids dir) args.dataCid none (previousCid cids dir'))
      (hnext : Repoint (nextCid cids dir) args.dataCid none (nextCid cids dir'))
  | update (hcreate : args.create = false) (hupdate : args.update = true)
      (mid : Text → Except MetaError (Option Text))
      (hmeta : ∃ o, previousCid cids dir args.previous = .ok o)
      (hprev : Repoint (previousCid cids dir) args.dataCid (some args.previous)
        (previousCid cids dir'))
      (hmid : Repoint (nextCid cids dir) args.previous (some args.dataCid) mid)
      (hnext : Repoint mid args.dataCid none (nextCid cids dir'))
  | deal (hcreate : args.create = false) (hupdate : args.update = false) (heq : dir' = dir)

theorem dealStep_effect {dir dir' : Dir} {call : DealCall}
    (hwf : WellFormed cids dir) (h : dealStep cids dir call = some dir') :
    WellFormed cids dir' ∧ DealEffect cids dir dir' call.args := by
  obtain ⟨hflags, hcid, u, hrec⟩ := dealStep_ok h
  unfold recordVersion at hrec
  split at hrec
  · next hcreate =>
    obtain ⟨_, d1, hopen, hrec⟩ := bind_ok hrec
    obtain ⟨_, d2, hlog, hrec⟩ := bind_ok hrec
    obtain ⟨_, logged, hclose, hmeta⟩ := bind_ok hrec
    have hlogged : ∀ x, logged.lookup (metaPath x) = dir.lookup (metaPath x) := by
      rw [fileOp_ok hclose, fileOp_ok hlog, fileOp_ok hopen]
      simp only [AList.lookup_insert_ne (metaPath_ne_filerootsPath _), implies_true]
    obtain rfl := fileOp_ok hmeta
    have hwf' : WellFormed cids logged := fun c content hc => hwf c content (hlogged c ▸ hc)
    let m : VersionMeta cids := ⟨none, none, nofun, nofun⟩
    refine ⟨wellFormed_insert hwf' hcid m, .create hcreate ?_ ?_ ?_⟩
    · rcases hflags with hf | hf
      · rw [hcreate] at hf; cases hf
      · exact hf
    · refine ⟨(repoint_previous m).self, fun x hx => ?_⟩
      exact ((repoint_previous m).other x hx).trans (previousCid_congr (hlogged x))
    · refine ⟨(repoint_next m).self, fun x hx => ?_⟩
      exact ((repoint_next m).other x hx).trans (nextCid_congr (hlogged x))
  · next hcreate =>
    rw [Bool.not_eq_true] at hcreate
    split at hrec
    · next hupdate =>
      obtain ⟨content, line0, line1, rest, hl, hlines, rfl⟩ := recordUpdate_ok hrec
      obtain ⟨hp, m, rfl⟩ := hwf _ content hl
      rw [contentLines_content] at hlines
      cases hlines
      -- Line 1 and the rest of the previous version's file are written back as read.
      let m1 : VersionMeta cids := ⟨m.prev, some call.args.dataCid, m.prev_cid,
        fun c hc => by cases hc; exact hcid⟩
      let m2 : VersionMeta cids := ⟨some call.args.previous, none,
        fun c hc => by cases hc; exact hp, nofun⟩
      refine ⟨wellFormed_insert (wellFormed_insert hwf hp m1) hcid m2,
        .update hcreate hupdate _ ⟨_, previousCid_content hl⟩ ?_ (repoint_next m1)
          (repoint_next m2)⟩
      refine ⟨(repoint_previous m2).self, fun x hx => ?_⟩
      refine ((repoint_previous m2).other x hx).trans ?_
      by_cases hxp : x = call.args.previous
      · subst hxp
        exact (repoint_previous m1).self.trans (previousCid_content hl).symm
      · exact (repoint_previous m1).other x hxp
    · next hupdate =>
      cases hrec
      exact ⟨hwf, .deal hcreate (by simpa using hupdate) rfl⟩

/-! ## The walks on well-formed metadata -/

namespace MetadataLemmas

variable {cids : CidParser} {dir : Dir} {c : Text}

theorem wellFormed_empty : WellFormed cids ∅ := by
  intro c content hc
  cases hc

theorem meta_of_mem (hwf : WellFormed cids dir) (hc : metaPath c ∈ dir) : cids.accepts c = true ∧
      ∃ m : VersionMeta cids, dir.lookup (metaPath c) = some m.content := by
  obtain ⟨content, hl⟩ := isSome_iff_exists.mp (AList.lookup_isSome.mpr hc)
  obtain ⟨hacc, m, rfl⟩ := hwf c content hl
  exact ⟨hacc, m, hl⟩

theorem mem_of_readMeta {lines : Text × Text}
    (h : readMeta dir c = .ok lines) : metaPath c ∈ dir := by
  unfold readMeta at h
  split at h
  · cases h
  · next hl => exact AList.lookup_isSome.mp (isSome_iff_exists.mpr ⟨_, hl⟩)

theorem mem_of_previousCid {o : Option Text}
    (h : previousCid cids dir c = .ok o) : metaPath c ∈ dir := by
  unfold previousCid at h
  split at h
  · cases h
  · next hr => exact mem_of_readMeta hr

theorem mem_of_nextCid {o : Option Text} (h : nextCid cids dir c = .ok o) : metaPath c ∈ dir := by
  unfold nextCid at h
  split at h
  · cases h
  · next hr => exact mem_of_readMeta hr

/-- The CIDs with a metadata file, one candidate per file name. -/
def named (dir : Dir) : List Text := dir.keys.map fun path => path.take (path.length - 5)

theorem mem_named (h : metaPath c ∈ dir) : c ∈ named dir := by
  refine mem_map.mpr ⟨metaPath c, AList.mem_keys.mp h, ?_⟩
  simp [metaPath]

theorem length_named : (named dir).length + 1 = rounds dir := by
  simp [named, rounds]

/-- Either walk ends when only versions with a metadata file have a pointer. -/
theorem follow_returns {pointer : Text → Except MetaError (Option Text)}
    (hfile : ∀ y o, pointer y = .ok o → metaPath y ∈ dir) (x : Text) :
    follow pointer .cycle (rounds dir) [] x ≠ none := by
  refine follow_ne_none (fun y o hy => mem_named (hfile y o hy)) nodup_nil
    (nil_subset _) ?_
  rw [← length_named, length_nil]
  exact Nat.lt_succ_self _

end MetadataLemmas

/-- `retrieve-version` returns a chain or an error on every directory. -/
theorem retrieveVersionChain_returns (cids : CidParser) (dir : Dir) (target : Text) :
    retrieveVersionChain cids dir target ≠ none := by
  unfold retrieveVersionChain
  split
  · exact follow_returns (fun _ _ => mem_of_previousCid) target
  · exact some_ne_none _

/-- `list-version` returns a list or an error on every directory. -/
theorem listVersion_returns (cids : CidParser) (dir : Dir) (arg : Text) :
    listVersion cids dir arg ≠ none := by
  unfold listVersion
  dsimp only
  split_ifs
  · exact some_ne_none _
  · exact some_ne_none _
  · rw [ne_eq, map_eq_none_iff]
    exact follow_returns (fun _ _ => mem_of_nextCid) _
  · exact some_ne_none _

/-- `retrieve-version` resolves a target exactly when its pointers form a
chain; the result has the root first. -/
theorem retrieveVersionChain_ok_iff {dir : Dir} {target : Text}
    {chain : List Text} : retrieveVersionChain cids dir target = some (.ok chain) ↔
      cids.accepts target = true ∧
        ∃ l, Chain (previousCid cids dir) target l ∧ chain = l.reverse := by
  unfold retrieveVersionChain
  split
  · next hacc =>
    rw [← length_named, follow_ok_iff fun y o hy => mem_named (mem_of_previousCid hy)]
    simp [hacc]
  · next hacc => simp [hacc]

/-- `list-version` lists the versions of a root exactly when its pointers form
a chain. -/
theorem listVersion_ok_iff {dir : Dir} {root : Text} {l : List Text}
    (hroot : cids.accepts root = true) :
    listVersion cids dir root = some (.ok (some l)) ↔ Chain (nextCid cids dir) root l := by
  have htext := cids.cidText root hroot
  have hwalk : ∀ r, follow (nextCid cids dir) .cycle (rounds dir) [] root = some (.ok r) ↔
      ∃ l, Chain (nextCid cids dir) root l ∧ r = l.reverse := by
    intro r
    rw [← length_named]
    exact follow_ok_iff fun y o hy => mem_named (mem_of_nextCid hy)
  unfold listVersion
  rw [trimSpace_eq_self htext.no_space]
  simp only [htext.ne_nil, if_false, hroot, Bool.not_true, Bool.false_eq_true]
  split
  · next hmem =>
    refine ⟨nofun, fun h => ?_⟩
    obtain ⟨o, ho⟩ := h.next_ok h.head_mem
    exact absurd (mem_of_nextCid ho) hmem
  · rw [map_eq_some_iff]
    constructor
    · rintro ⟨r, hr, hmap⟩
      cases r with
      | error e => cases hmap
      | ok visited =>
        obtain ⟨l', hl', rfl⟩ := (hwalk visited).mp hr
        simp only [Except.map, reverse_reverse] at hmap
        cases hmap
        exact hl'
    · intro h
      refine ⟨_, (hwalk l.reverse).mpr ⟨l, h, rfl⟩, ?_⟩
      simp only [Except.map, reverse_reverse]

end OpenDsn.Cli
