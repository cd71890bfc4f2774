import Mathlib.Data.List.MinMax
import OpenDsn.Lib.Run
import OpenDsn.Lib.Table
import OpenDsn.Lib.Text

/-!
# The backup datastore

`lib/backupds`: a datastore that writes its puts to a log file as well, after a
dump of the datastore that it wraps. `RestoreInto` puts in the dump and then the
entries. A delete is not in the log, and a put of a batch is in it before the
batch is committed, or if it never is.

* `restores_of_serial`: the log restores the datastore whenever no batch is
  open, if no key is deleted and nothing else is written while a batch is open;
* `latestLog_iff`: which log is opened: of a name only the first nine characters are read.
-/

namespace OpenDsn.Backupds

open Lib List Option

/-- What `ReadBackup` reads: the dump and the entries of the log. -/
structure Logfile where
  name : Text
  base : List (Text × Text)
  entries : List (Text × Text)

def loghead : Text := "/backupds/log/head".toList

def compactThresh : Nat := 2

def Logfile.writeEntry (l : Logfile) (k v : Text) : Logfile :=
  { l with entries := l.entries ++ [(k, v)] }

/-- `RestoreInto` an empty datastore. -/
def restoreInto (l : Logfile) : Table Text Text :=
  (l.base ++ l.entries).foldl (fun t e => t.insert e.1 e.2) ∅

def logExt : Text := ".log.cbor".toList

/-- The name that `createLog` gives at a Unix time. -/
def logName (time : Nat) : Text := Text.itoa time ++ logExt

/-- The loop of `startLog` over the files of the directory, for the latest name and its number.
`none` is a name that is not parsed. The number is read from as many characters as the extension
has. -/
def scanLogs : List Text → Text × Int → Option (Text × Int)
  | [], latest => some latest
  | fn :: files, latest =>
      if ¬logExt.isSuffixOf fn then scanLogs files latest
      else
        (Text.atoi (fn.take logExt.length)).bind fun sec =>
          scanLogs files (if sec > latest.2 then (fn, sec) else latest)

/-- The log that `startLog` opens; an empty name is for `createLog`. -/
def latestLog (files : List Text) : Option Text := (scanLogs files ([], 0)).map Prod.fst

/-- The wrapped datastore, the log if there is one, and the open batches: keys
with the value that is put, or `none` for a delete. -/
structure Datastore where
  child : Table Text Text
  log : Option Logfile
  batches : List (List (Text × Option Text))

namespace Datastore

section

variable (d : Datastore)

/-- `Put`, and `writeLogHead` for the key `loghead`. -/
def put (k v : Text) : Datastore :=
  { d with log := d.log.map (·.writeEntry k v), child := d.child.insert k v }

def createLog (now : Nat) : Logfile :=
  { name := logName now
    base := d.child.pairs
    entries := [] }

def openLog (l : Logfile) (now : Nat) : Option Logfile := do
  let lh ← d.child.get? loghead
  let lhp := lh.splitOn ';'
  let lastLogHead := ((l.base ++ l.entries).reverse.lookup loghead).getD []
  if lhp.length ≠ 3 ∨ lhp.head? ≠ some l.name ∨ lh ≠ lastLogHead then none
  else if l.base.length * compactThresh < l.entries.length then
    -- The new file is created with `O_EXCL`, and the old one removed.
    if (d.createLog now).name = l.name then none else some (d.createLog now)
  else some l

/-- `Wrap`, at first and after the node was stopped. The log is the one file of the directory. -/
def startLog (now : Nat) (uuid : Text) : Option Datastore := do
  let latest ← latestLog (d.log.toList.map Logfile.name)
  let l ← (d.log.filter (·.name = latest)).elim (some (d.createLog now)) (d.openLog · now)
  some ({ d with log := some l, batches := [] }.put loghead
    (l.name ++ ';' :: uuid ++ ';' :: Text.itoa now))

def commit (child : Table Text Text) (batch : List (Text × Option Text)) : Table Text Text :=
  batch.foldl (fun t op => op.2.elim (t.erase op.1) (t.insert op.1)) child

inductive Op
  | startLog (now : Nat) (uuid : Text)
  | put (k v : Text)
  | delete (k : Text)
  | batch
  | batchPut (i : Nat) (k v : Text)
  | batchDelete (i : Nat) (k : Text)
  | commit (i : Nat)

def step : Op → Option Datastore
  | .startLog now uuid => d.startLog now uuid
  | .put k v => some (d.put k v)
  | .delete k => some { d with child := d.child.erase k }
  | .batch => some { d with batches := d.batches ++ [[]] }
  | .batchPut i k v => d.batches[i]?.map fun b =>
      { d with
        log := d.log.map (·.writeEntry k v)
        batches := d.batches.set i (b ++ [(k, some v)]) }
  | .batchDelete i k => d.batches[i]?.map fun b =>
      { d with batches := d.batches.set i (b ++ [(k, none)]) }
  | .commit i => d.batches[i]?.map fun b =>
      { d with child := commit d.child b, batches := d.batches.set i [] }

/-- The log, if there is one, restores this map. -/
def RestoresTo (t : Table Text Text) : Prop :=
  ∀ l ∈ d.log, ∀ k, (restoreInto l).get? k = t.get? k

/-- No batch has an operation that is not committed. -/
def Idle : Prop := d.batches.flatten = []

/-- No delete of a key that is there, and nothing else while a batch is open. -/
def Serial : Op → Prop
  | .startLog .. | .put .. => d.Idle
  | .delete k => d.child.get? k = none
  | .batch => True
  | .batchPut i .. | .commit i => (d.batches.set i []).flatten = []
  | .batchDelete .. => False

end

instance (d : Datastore) : ∀ op, Decidable (d.Serial op)
  | .startLog .. | .put .. => inferInstanceAs (Decidable (_ = _))
  | .delete .. | .batchPut .. | .commit .. => inferInstanceAs (Decidable (_ = _))
  | .batch => .isTrue trivial
  | .batchDelete .. => .isFalse id

namespace DatastoreLemmas

open Table

variable {d d' : Datastore} {k v : Text}

theorem restoreInto_writeEntry (l : Logfile) :
    restoreInto (l.writeEntry k v) = (restoreInto l).insert k v := by
  unfold restoreInto Logfile.writeEntry
  rw [← append_assoc, foldl_append]
  rfl

theorem restoresTo_writeEntry {t : Table Text Text} (h : d.RestoresTo t)
    (hlog : d'.log = d.log.map (·.writeEntry k v)) : d'.RestoresTo (t.insert k v) := by
  intro l hl k'
  rw [hlog] at hl
  obtain ⟨l₀, hl₀, rfl⟩ := map_eq_some_iff.mp hl
  rw [restoreInto_writeEntry, get?_insert, get?_insert, h l₀ hl₀ k']

/-- The keys of the dump are different, so their order does not matter. -/
theorem restoreInto_createLog (now : Nat) (k : Text) :
    (restoreInto (d.createLog now)).get? k = d.child.get? k := by
  unfold restoreInto createLog
  rw [append_nil]
  cases h : d.child.get? k with
  | some v =>
    refine get?_foldl_insert_of_mem (mem_pairs.mpr h) rfl ?_
    rintro ⟨k', v'⟩ hmem rfl
    exact some.inj ((mem_pairs.mp hmem).symm.trans h)
  | none =>
    rw [get?_foldl_insert_of_forall_ne]
    · rfl
    · rintro ⟨k', v'⟩ hmem rfl
      cases (mem_pairs.mp hmem).symm.trans h

theorem flatten_set {α : Type} {l : List (List α)} {i : Nat} {b : List α}
    (h : (l.set i []).flatten = []) (hb : l[i]? = some b) (b' : List α) :
    l.flatten = b ∧ (l.set i b').flatten = b' := by
  induction l generalizing i with
  | nil => cases hb
  | cons a l ih =>
    cases i with
    | zero =>
      cases hb
      have hrest : l.flatten = [] := h
      simp [hrest]
    | succ i =>
      obtain ⟨ha, hrest⟩ := append_eq_nil_iff.mp h
      have hset := ih hrest hb
      simp [ha, hset]

theorem openLog_eq {l l' : Logfile} {now : Nat} (h : d.openLog l now = some l') :
    l' = l ∨ l' = d.createLog now := by
  obtain ⟨lh, -, h⟩ := bind_eq_some_iff.mp h
  dsimp only at h
  split_ifs at h <;> cases h
  · exact .inr rfl
  · exact .inl rfl

theorem restoresTo_startLog {now : Nat} {uuid : Text} (h : d.RestoresTo d.child)
    (hs : d.startLog now uuid = some d') : d'.RestoresTo d'.child ∧ d'.batches = [] := by
  obtain ⟨latest, -, hs⟩ := bind_eq_some_iff.mp hs
  obtain ⟨l, hl, hs⟩ := bind_eq_some_iff.mp hs
  cases hs
  refine ⟨restoresTo_writeEntry (d := { d with log := some l, batches := [] }) ?_ rfl, rfl⟩
  rintro _ ⟨⟩ k
  cases hlog : d.log.filter (·.name = latest) with
  | none =>
    rw [hlog] at hl
    cases hl
    exact restoreInto_createLog now k
  | some l₀ =>
    rw [hlog] at hl
    rcases openLog_eq hl with rfl | rfl
    · exact h l (eq_some_of_filter_eq_some hlog) k
    · exact restoreInto_createLog now k

/-- With the open batch committed, the map is that of the log. -/
theorem restoresTo_step {op : Op} (h : d.RestoresTo (commit d.child d.batches.flatten))
    (hg : d.Serial op) (hs : d.step op = some d') :
    d'.RestoresTo (commit d'.child d'.batches.flatten) := by
  cases op with
  | startLog now uuid =>
    rw [show d.batches.flatten = [] from hg] at h
    obtain ⟨h', hnil⟩ := restoresTo_startLog h hs
    rw [hnil]
    exact h'
  | put k v =>
    cases hs
    have hidle : d.batches.flatten = [] := hg
    show RestoresTo _ (commit _ d.batches.flatten)
    rw [hidle] at h ⊢
    exact restoresTo_writeEntry h rfl
  | delete k =>
    cases hs
    rw [erase_of_get?_none hg]
    exact h
  | batch =>
    cases hs
    rw [flatten_append, flatten_singleton, append_nil]
    exact h
  | batchPut i k v =>
    obtain ⟨b, hb, rfl⟩ := map_eq_some_iff.mp hs
    obtain ⟨hall, hset⟩ := flatten_set hg hb (b ++ [(k, some v)])
    rw [hall] at h
    rw [hset, commit, foldl_append]
    exact restoresTo_writeEntry h rfl
  | batchDelete i k => exact hg.elim
  | commit i =>
    obtain ⟨b, hb, rfl⟩ := map_eq_some_iff.mp hs
    rw [(flatten_set hg hb []).1] at h
    rw [show (d.batches.set i []).flatten = [] from hg]
    exact h

end DatastoreLemmas

open DatastoreLemmas

theorem restores_of_serial (child : Table Text Text) {ops : List Op} {ds : List Datastore}
    (h : trace step ⟨child, none, []⟩ ops = some ds)
    (hg : Guarded step Serial ⟨child, none, []⟩ ops) :
    ∀ d ∈ ds, d.Idle → d.RestoresTo d.child := by
  have hall := trace_forall_guarded
    (P := fun d => d.RestoresTo (commit d.child d.batches.flatten))
    (fun _ _ _ => restoresTo_step) nofun h hg
  intro d hd hidle
  have hd' := hall d hd
  rw [show d.batches.flatten = [] from hidle] at hd'
  exact hd'

/-- A batch, a put and a stop in between. -/
theorem restores_two_starts :
    ∃ ds, trace step ⟨∅, none, []⟩ [.startLog 1700000000 ['a'], .batch,
        .batchPut 0 ['k'] ['v'], .commit 0, .put ['k'] ['w'], .startLog 1700000009 ['b']] =
        some ds ∧
      ∀ d ∈ ds, d.Idle → d.RestoresTo d.child :=
  exists_trace_of (by decide +kernel) fun _ h => restores_of_serial ∅ h (by decide +kernel)

/-- A deleted key comes back. -/
theorem deleted_key_restored :
    ∃ ds, trace step ⟨∅, none, []⟩
        [.startLog 1700000000 ['a'], .put ['k'] ['v'], .delete ['k']] = some ds ∧
      ∃ d ∈ ds, d.Idle ∧ ¬ d.RestoresTo d.child := by
  refine ⟨_, rfl, _, mem_of_getLast? rfl, rfl, fun h => ?_⟩
  exact absurd (h _ rfl ['k']) (by decide +kernel)

end Datastore

/-! ## The choice of the log -/

/-- The number that the first nine digits of a time are. -/
def leading (time : Nat) : Nat := time / 10 ^ ((Nat.toDigits 10 time).length - 9)

namespace LogLemmas

theorem length_toDigits_le {n k : Nat} (hk : 0 < k) :
    (Nat.toDigits 10 n).length ≤ k ↔ n < 10 ^ k :=
  Nat.length_toDigits_le_iff (by decide) hk

theorem take_toDigits {n k : Nat} (h : (Nat.toDigits 10 n).length = k + 9) :
    (Nat.toDigits 10 n).take 9 = Nat.toDigits 10 (n / 10 ^ k) := by
  induction k generalizing n with
  | zero => rw [take_of_length_le h.le, pow_zero, Nat.div_one]
  | succ k ih =>
    have hten : 10 ≤ n := by
      have hone := length_toDigits_le (n := n) (k := 1) (by decide)
      omega
    have hdigits := Nat.toDigits_append_toDigits (b := 10) (n := n / 10) (d := n % 10) (by decide)
      (by omega) (Nat.mod_lt _ (by decide))
    rw [Nat.div_add_mod, Nat.toDigits_of_lt_base (Nat.mod_lt _ (by decide))] at hdigits
    have hlen : (Nat.toDigits 10 (n / 10)).length = k + 9 := by
      rw [← hdigits, length_append, length_singleton] at h
      omega
    rw [← hdigits, take_append_of_le_length (by omega), ih hlen, pow_succ', Nat.div_div_eq_div_mul]

/-- Of a time with nine digits or more the scan reads nine; others are not parsed. -/
theorem atoi_logName (n : Nat) : Text.atoi ((logName n).take logExt.length) =
    if 10 ^ 8 ≤ n then some (leading n : Int) else none := by
  have height := length_toDigits_le (n := n) (k := 8) (by decide)
  show Text.atoi ((Nat.toDigits 10 n ++ logExt).take 9) = _
  split_ifs with hn
  · have hlen : (Nat.toDigits 10 n).length = (Nat.toDigits 10 n).length - 9 + 9 := by omega
    rw [take_append_of_le_length (by omega), take_toDigits hlen]
    exact Text.atoi_itoa (leading n)
  · refine Text.atoi_eq_none (c := '.') ?_ (by decide) (by decide)
    obtain ⟨k, hk⟩ : ∃ k, 9 = (Nat.toDigits 10 n).length + (k + 1) :=
      ⟨8 - (Nat.toDigits 10 n).length, by omega⟩
    rw [hk, take_length_add_append]
    exact mem_append_right _ mem_cons_self

theorem leading_pos {n : Nat} (h : 0 < n) : 0 < leading n := by
  refine Nat.div_pos ?_ (Nat.pow_pos (by decide))
  rcases Nat.eq_zero_or_pos ((Nat.toDigits 10 n).length - 9) with hk | hk
  · rw [hk]
    exact h
  · have hle := length_toDigits_le (n := n) hk
    omega

theorem scanLogs_cons (t : Nat) (times : List Nat) (latest : Text × Int) :
    scanLogs ((t :: times).map logName) latest = if 10 ^ 8 ≤ t then
      scanLogs (times.map logName)
        (if (leading t : Int) > latest.2 then (logName t, leading t) else latest) else none := by
  have hsuffix : logExt.isSuffixOf (logName t) = true :=
    isSuffixOf_iff_suffix.mpr (suffix_append _ _)
  rw [map_cons, scanLogs, if_neg (not_not.mpr hsuffix), atoi_logName]
  split <;> rfl

theorem scanLogs_none {times : List Nat} {latest : Text × Int} (h : ∃ t ∈ times, ¬10 ^ 8 ≤ t) :
    scanLogs (times.map logName) latest = none := by
  induction times generalizing latest with
  | nil => exact absurd h (by simp)
  | cons t times ih =>
    rw [scanLogs_cons]
    by_cases ht : 10 ^ 8 ≤ t
    · obtain ⟨u, hu, hlow⟩ := h
      rw [if_pos ht]
      exact ih ⟨u, (mem_cons.mp hu).resolve_left fun heq => hlow (heq ▸ ht), hlow⟩
    · exact if_neg ht

/-- The latest so far, as a pair of its name and its number. -/
def found (o : Option Nat) : Text × Int := o.elim ([], 0) fun t => (logName t, leading t)

/-- The scan finds the first of the largest numbers. -/
theorem scanLogs_found {times : List Nat} (h : ∀ t ∈ times, 10 ^ 8 ≤ t) (o : Option Nat) :
    scanLogs (times.map logName) (found o) =
      some (found (times.foldl (argAux fun b c => leading c < leading b) o)) := by
  induction times generalizing o with
  | nil => rfl
  | cons t times ih =>
    obtain ⟨ht, h⟩ := forall_mem_cons.mp h
    rw [scanLogs_cons, if_pos ht, foldl_cons, ← ih h]
    congr 1
    cases o with
    | none => exact if_pos (Int.natCast_pos.mpr (leading_pos (by omega)))
    | some m =>
      simp only [found, argAux, elim_some, gt_iff_lt, Int.ofNat_lt]
      split <;> rfl

end LogLemmas

open LogLemmas in
/-- The log of a time is opened exactly when every name can be parsed, no time has a larger number
in its first nine digits, and those with the same number come later in the directory. -/
theorem latestLog_iff (times : List Nat) (last : Nat) :
    latestLog (times.map logName) = some (logName last) ↔ (∀ t ∈ times, 10 ^ 8 ≤ t) ∧
      last ∈ times ∧ (∀ t ∈ times, leading t ≤ leading last) ∧
        ∀ t ∈ times, leading last ≤ leading t → times.idxOf last ≤ times.idxOf t := by
  unfold latestLog
  by_cases h : ∀ t ∈ times, 10 ^ 8 ≤ t
  · have hscan := scanLogs_found h none
    rw [← argmax_eq_some_iff, and_iff_right h, show (([] : Text), (0 : Int)) = found none from rfl,
      hscan, map_some, some_inj]
    show (found (argmax leading times)).1 = _ ↔ _
    cases argmax leading times with
    | none =>
      refine iff_of_false (fun hnil => ?_) nofun
      exact append_ne_nil_of_left_ne_nil (Text.itoa_ne_nil _) _ hnil.symm
    | some m =>
      rw [some_inj]
      refine ⟨fun hname => ?_, congrArg logName⟩
      have hread := congrArg Text.atoi (append_cancel_right hname)
      rw [Text.atoi_itoa, Text.atoi_itoa] at hread
      exact Int.ofNat.inj (some.inj hread)
  · rw [scanLogs_none (by simpa using h)]
    exact iff_of_false nofun fun hall => h hall.1

/-- The log of the second after is not opened. -/
theorem earlier_log_opened : latestLog ([1700000000, 1700000001].map logName) =
    some (logName 1700000000) := by
  decide +kernel

end OpenDsn.Backupds
