import OpenDsn.Api.VersionLabel
import OpenDsn.Lib.Dfs
import OpenDsn.Lib.Sort

/-!
# The file catalog

`cmd/opendsn-api/catalog.go`: the catalog has one entry per uploaded file with
all its versions. Loading and saving it normalizes every file, which orders and
labels the versions by a walk over the successors of the root version.

The JSON store gives back what was written, so the stored catalog is the state.
-/

namespace OpenDsn.Api

open Lib Lib.Text

inductive VersionKind
  | unset
  | initial
  | patch
deriving DecidableEq

structure CatalogVersion where
  cid : Text
  rootCid : Text
  versionLabel : Text
  previousCid : Text
  previousVersionLabel : Text
  minerIndex : Text
  sourceName : Text
  sizeBytes : Int
  sizeMB : Text
  uploadedAt : Text
  kind : VersionKind

structure CatalogFile where
  rootCid : Text
  displayName : Text
  extension : Text
  createdAt : Text
  versions : List CatalogVersion

structure Catalog where
  files : List CatalogFile

/-- What the source takes from the Go library without this development having
it: `sort.Slice` and the lower-case table behind `strings.ToLower`. -/
structure CatalogEnv where
  sorter : Sorter
  lower : Char → Char

def toLower (env : CatalogEnv) (t : Text) : Text := t.map env.lower

/-! ## Names and sizes -/

def deriveSourceName (sourcePath displayName fallback : Text) : Text :=
  let candidate := trimSpace displayName
  if candidate ≠ [] then pathBase candidate
  else if trimSpace sourcePath ≠ [] then pathBase sourcePath
  else fallback

/-- `a / b` rounded to the nearest integer, ties to even. -/
def divRoundEven (a b : Nat) : Nat :=
  let q := a / b
  let r := a % b
  if 2 * r < b ∨ (2 * r = b ∧ q % 2 = 0) then q else q + 1

/-- The nearest `float64` of a natural number. -/
def toFloat64 (n : Nat) : Nat :=
  if n < 1 <<< 53 then n
  else
    let ulp := 1 <<< (Nat.log2 n - 52)
    divRoundEven n ulp * ulp

/-- Dividing a `float64` by `1024*1024` is exact, so `%.2f` rounds only once. -/
def formatSizeMB (sizeBytes : Int) : Text :=
  if sizeBytes ≤ 0 then ['0', '.', '0', '0']
  else
    let hundredths := divRoundEven (toFloat64 sizeBytes.toNat * 100) (1024 * 1024)
    itoa (hundredths / 100 : Nat) ++
      ['.', Nat.digitChar (hundredths % 100 / 10), Nat.digitChar (hundredths % 10)]

/-! ## Normalization -/

def findVersionIndex (versions : List CatalogVersion) (cid : Text) : Option Nat :=
  versions.findIdx? (·.cid = cid)

/-- The fields normalization fills in. -/
def fillDefaults (file : CatalogFile) (v : CatalogVersion) : CatalogVersion :=
  { v with
    rootCid := file.rootCid
    sourceName := if trimSpace v.sourceName = [] then file.displayName else v.sourceName
    kind :=
      if v.kind = .unset then (if v.cid = file.rootCid then .initial else .patch) else v.kind
    sizeMB := if v.sizeMB = [] then formatSizeMB v.sizeBytes else v.sizeMB }

def childLess (left right : CatalogVersion) : Bool :=
  if left.uploadedAt ≠ right.uploadedAt then left.uploadedAt < right.uploadedAt
  else if left.sourceName ≠ right.sourceName then left.sourceName < right.sourceName
  else left.cid < right.cid

section

variable (env : CatalogEnv) (versions : List CatalogVersion)

/-- `children[parent]`, sorted. -/
def children (parent : Text) : List CatalogVersion :=
  env.sorter.sort childLess
    (versions.filter fun v => trimSpace v.previousCid ≠ [] ∧ trimSpace v.previousCid = parent)

/-- A version on the walk, by its CID, with its label. -/
abbrev Labelled := Text × (CatalogVersion × Text)

def labelled (v : CatalogVersion) (label : Text) : Labelled := (v.cid, v, label)

/-- The successors of a version: the first continues its line, the others
branch off. -/
def successors (e : Labelled) : List Labelled :=
  match children env versions e.1 with
  | [] => []
  | first :: branches =>
      let continuationLabel := nextGenerationLabel e.2.2
      labelled first continuationLabel ::
        branches.mapIdx fun branchOffset child =>
          labelled child (branchLabel continuationLabel branchOffset)

/-- `walkTree`, after the versions `walked` so far. -/
def walkTree (walked : List Labelled) (v : CatalogVersion) (label : Text) : List Labelled :=
  dfs (successors env versions) (versions.length + 1) walked (labelled v label)

/-- The walks from versions that the root does not lead to. -/
def walkOrphans (env : CatalogEnv) (versions : List CatalogVersion) :
    List CatalogVersion → Nat → List Labelled → List Labelled
  | [], _, walked => walked
  | v :: rest, orphanCount, walked =>
      if v.cid ∈ keys walked then walkOrphans env versions rest orphanCount walked
      else
        let fallbackLabel :=
          'v' :: itoa ((versions.length + 1 + orphanCount * (versions.length + 1) : Nat) : Int)
        walkOrphans env versions rest (orphanCount + 1)
          (walkTree env versions walked v fallbackLabel)

/-- All versions with their labels, in the order of the walk from `root`. -/
def walkVersions (root : CatalogVersion) : List Labelled :=
  let walked := walkTree env versions [] root ['v', '1']
  if walked.length < versions.length then walkOrphans env versions versions 0 walked else walked

end

def labelByCid (walked : List Labelled) (cid : Text) : Option Text :=
  (walked.lookup cid).map Prod.snd

/-- A walked version with its label and the one of its previous version. -/
def relabel (walked : List Labelled) (e : Labelled) : CatalogVersion :=
  { e.2.1 with
    versionLabel := e.2.2
    previousVersionLabel := (labelByCid walked e.2.1.previousCid).getD [] }

def versionLess (left right : CatalogVersion) : Bool :=
  match compareVersionLabels left.versionLabel right.versionLabel with
  | .lt => true
  | .gt => false
  | .eq =>
      if left.uploadedAt ≠ right.uploadedAt then left.uploadedAt < right.uploadedAt
      else left.cid < right.cid

/-- The versions of the normalized file. -/
def orderedVersions (walked : List Labelled) : List CatalogVersion :=
  stableSort versionLess (walked.map (relabel walked))

/-- Where the walk starts: the version of the root CID, or else the first. -/
def startVersion (file : CatalogFile) (first : CatalogVersion) (rest : List CatalogVersion) :
    CatalogVersion :=
  ((first :: rest).find? (·.cid = file.rootCid)).getD first

section

variable (env : CatalogEnv)

def normalizeVersions (file : CatalogFile) : CatalogFile :=
  match file.versions.map (fillDefaults file) with
  | [] => file
  | first :: rest =>
      { file with versions :=
          orderedVersions (walkVersions env (first :: rest) (startVersion file first rest)) }

def fileLess (left right : CatalogFile) : Bool :=
  if toLower env left.displayName ≠ toLower env right.displayName then
    toLower env left.displayName < toLower env right.displayName
  else left.createdAt < right.createdAt

def normalize (catalog : Catalog) : Catalog :=
  { files := env.sorter.sort (fileLess env) (catalog.files.map (normalizeVersions env)) }

/-! ## Recording versions -/

def findFileIndexByRoot (catalog : Catalog) (root : Text) : Option Nat :=
  catalog.files.findIdx? (·.rootCid = root)

/-- The first file with a version of this CID, and the version's place in it. -/
def findVersionLocation (catalog : Catalog) (cid : Text) : Option (Nat × Nat) :=
  go 0 catalog.files
where
  go (fileIndex : Nat) : List CatalogFile → Option (Nat × Nat)
    | [] => none
    | file :: rest =>
        match findVersionIndex file.versions cid with
        | some versionIndex => some (fileIndex, versionIndex)
        | none => go (fileIndex + 1) rest

/-- What an upload brings besides its CIDs. -/
structure Upload where
  sourcePath : Text
  displayName : Text
  sizeBytes : Int
  minerIndex : Text
  uploadedAt : Text

def newVersion (cid root previous sourceName : Text) (kind : VersionKind) (label : Text)
    (upload : Upload) : CatalogVersion where
  cid := cid
  rootCid := root
  versionLabel := label
  previousCid := previous
  previousVersionLabel := []
  minerIndex := upload.minerIndex
  sourceName := sourceName
  sizeBytes := upload.sizeBytes
  sizeMB := formatSizeMB upload.sizeBytes
  uploadedAt := upload.uploadedAt
  kind := kind

def initialVersion (root : Text) (upload : Upload) : CatalogVersion :=
  newVersion root root [] (deriveSourceName upload.sourcePath upload.displayName root) .initial
    ['v', '1'] upload

/-- The file a recorded root already has, with its empty fields filled in and
its root version present. -/
def refreshFile (root : Text) (upload : Upload) (file : CatalogFile) : CatalogFile :=
  let sourceName := deriveSourceName upload.sourcePath upload.displayName root
  { file with
    displayName := if trimSpace file.displayName = [] then sourceName else file.displayName
    extension :=
      if trimSpace file.extension = [] then toLower env (pathExt sourceName) else file.extension
    createdAt := if trimSpace file.createdAt = [] then upload.uploadedAt else file.createdAt
    versions :=
      if (findVersionIndex file.versions root).isSome then file.versions
      else file.versions ++ [initialVersion root upload] }

def newFile (root : Text) (upload : Upload) : CatalogFile :=
  let sourceName := deriveSourceName upload.sourcePath upload.displayName root
  { rootCid := root
    displayName := sourceName
    extension := toLower env (pathExt sourceName)
    createdAt := upload.uploadedAt
    versions := [initialVersion root upload] }

/-- A file and a version by their places. -/
def entryAt (catalog : Catalog) (location : Nat × Nat) : Option (CatalogFile × CatalogVersion) :=
  match catalog.files[location.1]? with
  | none => none
  | some file => file.versions[location.2]?.map fun version => (file, version)

/-- The entry `upsertInitialVersion` returns; the source indexes without a
check. -/
def rootEntry (catalog : Catalog) (root : Text) : Option (CatalogFile × CatalogVersion) :=
  match catalog.files.find? (·.rootCid = root) with
  | none => none
  | some file => (file.versions.find? (·.cid = root)).map fun version => (file, version)

def upsertInitialVersion (catalog : Catalog) (root : Text) (upload : Upload) :
    Catalog × Option (CatalogFile × CatalogVersion) :=
  let updated := normalize env <|
    match findFileIndexByRoot catalog root with
    | some fileIndex => { files := catalog.files.modify fileIndex (refreshFile env root upload) }
    | none => { files := catalog.files ++ [newFile env root upload] }
  (updated, rootEntry updated root)

/-- A patch of `previous`, which is a version of `file`. -/
def patchVersion (file : CatalogFile) (cid : Text) (previous : CatalogVersion) (upload : Upload) :
    CatalogVersion :=
  newVersion cid file.rootCid previous.cid
    (deriveSourceName upload.sourcePath upload.displayName cid) .patch [] upload

def addVersion (version : CatalogVersion) (file : CatalogFile) : CatalogFile :=
  { file with versions := file.versions ++ [version] }

def addVersionAt (catalog : Catalog) (fileIndex : Nat) (version : CatalogVersion) : Catalog :=
  { files := catalog.files.modify fileIndex (addVersion version) }

inductive CatalogError
  /-- "previous version %s is not present in the catalog" -/
  | previousMissing (previousCid : Text)
  /-- "version %s was added but not found after normalization" -/
  | notFound (cid : Text)

def appendPatchVersion (catalog : Catalog) (cid previousCid : Text) (upload : Upload) :
    Except CatalogError (Catalog × CatalogFile × CatalogVersion) :=
  match findVersionLocation catalog previousCid with
  | none => .error (.previousMissing previousCid)
  | some location =>
      match entryAt catalog location with
      | none => .error (.previousMissing previousCid)
      | some (file, previous) =>
          match file.versions.find? (·.cid = cid) with
          | some version => .ok (catalog, file, version)
          | none =>
              let version := patchVersion file cid previous upload
              let updated := normalize env (addVersionAt catalog location.1 version)
              match (findVersionLocation updated cid).bind (entryAt updated) with
              | none => .error (.notFound cid)
              | some entry => .ok (updated, entry)

/-- `recordInitialVersion`: load, update, save. -/
def recordInitialVersion (stored : Catalog) (root : Text) (upload : Upload) :
    Catalog × Option (CatalogFile × CatalogVersion) :=
  let (catalog, entry) := upsertInitialVersion env (normalize env stored) root upload
  (normalize env catalog, entry)

/-- `recordPatchVersion`; an error leaves the store as it was. -/
def recordPatchVersion (stored : Catalog) (cid previousCid : Text) (upload : Upload) :
    Except CatalogError (Catalog × CatalogFile × CatalogVersion) :=
  match appendPatchVersion env (normalize env stored) cid previousCid upload with
  | .error e => .error e
  | .ok (catalog, entry) => .ok (normalize env catalog, entry)

end

end OpenDsn.Api
