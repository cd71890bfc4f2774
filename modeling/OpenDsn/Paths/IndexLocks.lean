import OpenDsn.Lib.Run
import OpenDsn.Lib.Table
import OpenDsn.Paths.FileType

/-!
# Locks of sector files

`storage/paths/index_locks.go`: a sector has a lock record while calls refer to it. A call
finds or makes the record and raises its reference count, tries to lock the file types it
wants, and waits if it may. When the context of a granted lock is done, a goroutine unlocks,
lowers the count and deletes the record if it was the last one. Records have addresses: a call
keeps the address of its record, whatever happens to the map.

A step is a critical section. While a lock is released, other calls may try to lock between
`unlock` and the change of the count. They do not read the count or the map, so this is
a try after the step.

* `exclusive_locks`: a file type that is locked for writing has no other holder;
* `locks_deleted_iff`: when all is released, the records of the sectors with a failed call are
  left, and no others.
-/

namespace OpenDsn.Paths

open Lib List Option

structure SectorLock where
  r : Fin fileTypes → Nat
  w : SectorFileType
  refs : Nat

def SectorLock.canLock (l : SectorLock) (read write : SectorFileType) : Bool :=
  (∀ i, ¬(write.all i = true ∧ l.r i > 0)) ∧ l.w &&& read = 0#64 ∧ l.w &&& write = 0#64

def SectorLock.tryLock (l : SectorLock) (read write : SectorFileType) : Option SectorLock :=
  if l.canLock read write then
    some { l with r := fun i => if read.all i then l.r i + 1 else l.r i, w := l.w ||| write }
  else none

def SectorLock.unlock (l : SectorLock) (read write : SectorFileType) : SectorLock :=
  { l with r := fun i => if read.all i then l.r i - 1 else l.r i, w := l.w &&& ~~~write }

/-- Where a call is. -/
inductive LockPhase
  /-- `StorageTryLock`, before it tries. -/
  | trying
  /-- `StorageLock`, before it tries. -/
  | locking
  /-- `StorageLock`, in `Wait`. -/
  | waiting
  /-- Granted; the goroutine waits for the context. -/
  | granted
deriving DecidableEq

structure LockCall where
  sector : SectorID
  read : SectorFileType
  write : SectorFileType
  /-- The address of the record. -/
  slk : Nat
  phase : LockPhase

structure IndexLocks where
  /-- The map of sectors to the addresses of their records. -/
  locks : Table SectorID Nat
  records : Nat → SectorLock
  nextAddr : Nat
  /-- Calls that have not failed and are not released. -/
  calls : Table Nat LockCall
  /-- The sectors of the calls that have failed. -/
  failed : List SectorID

def newIndexLocks : IndexLocks := ⟨∅, fun _ => ⟨fun _ => 0, 0#64, 0⟩, 0, ∅, []⟩

section

variable (s : IndexLocks)

/-- A call is failed: a try was refused, or a wait was cancelled. Its reference stays. -/
def IndexLocks.fail (id : Nat) (c : LockCall) : IndexLocks :=
  { s with calls := s.calls.erase id, failed := c.sector :: s.failed }

def IndexLocks.setRecord (addr : Nat) (l : SectorLock) : IndexLocks :=
  { s with records := Function.update s.records addr l }

def IndexLocks.setCall (id : Nat) (c : LockCall) : IndexLocks :=
  { s with calls := s.calls.insert id c }

inductive LockEvent
  /-- `lockWith` up to the call of `lockFn`. The phase is `trying` or `locking`. -/
  | start (id : Nat) (phase : LockPhase) (sector : SectorID) (read write : SectorFileType)
  /-- A call tries to lock, after it has started or was woken up. -/
  | attempt (id : Nat)
  /-- The context of a waiting call is done. -/
  | cancel (id : Nat)
  /-- The context of a granted lock is done. -/
  | release (id : Nat)

/-- The record of a sector is found, or made. -/
def IndexLocks.record (sector : SectorID) : Nat × IndexLocks :=
  match s.locks.get? sector with
  | some addr => (addr, s)
  | none => (s.nextAddr,
      { s.setRecord s.nextAddr ⟨fun _ => 0, 0#64, 0⟩ with
        locks := s.locks.insert sector s.nextAddr
        nextAddr := s.nextAddr + 1 })

/-- The reference is counted before the call tries. -/
def IndexLocks.start (id : Nat) (phase : LockPhase) (sector : SectorID)
    (read write : SectorFileType) : IndexLocks :=
  match s.record sector with
  | (addr, s) =>
      (s.setRecord addr { s.records addr with refs := (s.records addr).refs + 1 }).setCall id
        ⟨sector, read, write, addr, phase⟩

def IndexLocks.release (id : Nat) (c : LockCall) : IndexLocks :=
  let slk := (s.records c.slk).unlock c.read c.write
  let refs := slk.refs - 1
  { s.setRecord c.slk { slk with refs := refs } with
    locks := if refs = 0 then s.locks.erase c.sector else s.locks
    calls := s.calls.erase id }

/-- `none` for an event that cannot happen. -/
def lockStep : LockEvent → Option IndexLocks
  | .start id phase sector read write =>
      if s.calls.get? id ≠ none ∨ phase = .waiting ∨ phase = .granted then none
      else if read ||| write = 0#64 then some s
      else if BitVec.slt (BitVec.ofNat 64 (2 ^ fileTypes - 1)) (read ||| write) then some s
      else some (s.start id phase sector read write)
  | .attempt id =>
      match s.calls.get? id with
      | none => none
      | some c =>
          if c.phase = .granted then none
          else
            match (s.records c.slk).tryLock c.read c.write with
            | some slk => some ((s.setRecord c.slk slk).setCall id { c with phase := .granted })
            | none =>
                if c.phase = .trying then some (s.fail id c)
                else some (s.setCall id { c with phase := .waiting })
  | .cancel id =>
      match s.calls.get? id with
      | none => none
      | some c => if c.phase = .waiting then some (s.fail id c) else none
  | .release id =>
      match s.calls.get? id with
      | none => none
      | some c => if c.phase = .granted then some (s.release id c) else none

end

variable {events : List LockEvent} {states : List IndexLocks}

/-- A call with a granted lock. -/
def IndexLocks.Holds (s : IndexLocks) (id : Nat) (c : LockCall) : Prop :=
  s.calls.get? id = some c ∧ c.phase = .granted

namespace IndexLocksLemmas

open Table IndexLocks

variable {s s' : IndexLocks} {sector : SectorID} {id : Nat} {c : LockCall}

/-! ## References and readers -/

def refWeight (sector : SectorID) (c : LockCall) : Nat := if c.sector = sector then 1 else 0

def readWeight (sector : SectorID) (i : Fin fileTypes) (c : LockCall) : Nat :=
  if c.phase = .granted ∧ c.sector = sector ∧ c.read.all i = true then 1 else 0

/-- The references to the record of a sector. Failed calls have left theirs. -/
def refsOf (s : IndexLocks) (sector : SectorID) : Nat :=
  s.calls.total (refWeight sector) + s.failed.count sector

def readers (s : IndexLocks) (sector : SectorID) (i : Fin fileTypes) : Nat :=
  s.calls.total (readWeight sector i)

/-! ## The invariant -/

/-- What a record counts. -/
structure RecordOk (s : IndexLocks) (sector : SectorID) (l : SectorLock) : Prop where
  refs : l.refs = refsOf s sector
  r : ∀ i, l.r i = readers s sector i
  w : ∀ j, l.w.getLsbD j = true ↔
    ∃ id c, s.Holds id c ∧ c.sector = sector ∧ c.write.getLsbD j = true

/-- A sector with calls has a record, the calls have its address, and the locks that are
granted do not conflict. -/
structure SectorInv (s : IndexLocks) (sector : SectorID) : Prop where
  call : ∀ id c, s.calls.get? id = some c → c.sector = sector → s.locks.get? sector = some c.slk
  failed : sector ∈ s.failed → s.locks.get? sector ≠ none
  record : ∀ addr, s.locks.get? sector = some addr → RecordOk s sector (s.records addr)
  excl : ∀ id id' c c', s.Holds id c → s.Holds id' c' → c.sector = sector →
    c'.sector = sector → id ≠ id' →
      (∀ j, c.write.getLsbD j = true → c'.write.getLsbD j = false) ∧
        ∀ i, c.write.all i = true → c'.read.all i = false

structure LockInv (s : IndexLocks) : Prop where
  addr : ∀ sector addr, s.locks.get? sector = some addr → addr < s.nextAddr
  distinct : ∀ sector sector' addr, s.locks.get? sector = some addr →
    s.locks.get? sector' = some addr → sector = sector'
  sector : ∀ sector, SectorInv s sector

theorem LockInv.of_call (h : LockInv s) (hid : s.calls.get? id = some c) :
    s.locks.get? c.sector = some c.slk ∧ RecordOk s c.sector (s.records c.slk) :=
  have hlook := (h.sector c.sector).call id c hid rfl
  ⟨hlook, (h.sector c.sector).record c.slk hlook⟩

/-- A step that is about one sector and its record. -/
structure Frame (s s' : IndexLocks) (sector : SectorID) (addr : Nat) : Prop where
  next : s.nextAddr ≤ s'.nextAddr
  locks : ∀ x, x ≠ sector → s'.locks.get? x = s.locks.get? x
  records : ∀ a, a ≠ addr → s'.records a = s.records a
  calls : ∀ id c, c.sector ≠ sector → (s'.calls.get? id = some c ↔ s.calls.get? id = some c)
  total : ∀ w : LockCall → Nat, (∀ c, c.sector = sector → w c = 0) →
    s'.calls.total w = s.calls.total w
  failed : ∀ x, x ≠ sector → s'.failed.count x = s.failed.count x

variable {addr : Nat} {event : LockEvent} {t : IndexLocks} {l : SectorLock} {c' : LockCall}
  {id' : Nat}

theorem Frame.refsOf (h : Frame s s' sector addr) {x : SectorID} (hx : x ≠ sector) :
    refsOf s' x = refsOf s x := by
  unfold IndexLocksLemmas.refsOf
  rw [h.failed x hx, h.total]
  intro c hc
  exact if_neg fun heq => hx (heq.symm.trans hc)

theorem Frame.holds (h : Frame s s' sector addr) (hc : c.sector ≠ sector) :
    s'.Holds id c ↔ s.Holds id c := and_congr_left fun _ => h.calls id c hc

theorem Frame.sectorInv (h : Frame s s' sector addr) {x : SectorID}
    (hx : x ≠ sector) (haddr : s.locks.get? x ≠ some addr) (hinv : SectorInv s x) :
    SectorInv s' x where
  call id c hc hsector := by
    rw [h.locks x hx]
    exact hinv.call id c ((h.calls id c (hsector ▸ hx)).mp hc) hsector
  failed hmem := by
    rw [h.locks x hx]
    refine hinv.failed (count_pos_iff.mp ?_)
    rw [← h.failed x hx]
    exact count_pos_iff.mpr hmem
  record a ha := by
    rw [h.locks x hx] at ha
    have hrecord := hinv.record a ha
    rw [h.records a fun heq => haddr (heq ▸ ha)]
    refine ⟨hrecord.refs.trans (h.refsOf hx).symm, fun i => ?_, fun j => ?_⟩
    · rw [hrecord.r i]
      refine (h.total _ fun c hc => ?_).symm
      exact if_neg fun hw => hx (hw.2.1.symm.trans hc)
    · rw [hrecord.w j]
      refine exists_congr fun id => exists_congr fun c => ?_
      constructor
      · rintro ⟨hholds, hsector, hbit⟩
        exact ⟨(h.holds (hsector ▸ hx)).mpr hholds, hsector, hbit⟩
      · rintro ⟨hholds, hsector, hbit⟩
        exact ⟨(h.holds (hsector ▸ hx)).mp hholds, hsector, hbit⟩
  excl id id' c c' hc hc' hsector hsector' hne :=
    hinv.excl id id' c c' ((h.holds (hsector ▸ hx)).mp hc) ((h.holds (hsector' ▸ hx)).mp hc')
      hsector hsector' hne

/-- A step about a sector with its record, after which the sector is in order. -/
theorem LockInv.of_frame (h : LockInv s) (sector : SectorID) (addr : Nat)
    (hframe : Frame s s' sector addr)
    (haddr : s.locks.get? sector = some addr ∨ s.nextAddr ≤ addr ∧ addr < s'.nextAddr)
    (hlocks : ∀ a, s'.locks.get? sector = some a → a = addr)
    (hsector : SectorInv s' sector) : LockInv s' := by
  have hother : ∀ x, x ≠ sector → s.locks.get? x ≠ some addr := by
    intro x hx hlook
    rcases haddr with haddr | ⟨hle, -⟩
    · exact hx (h.distinct x sector addr hlook haddr)
    · exact absurd (h.addr x addr hlook) (Nat.not_lt_of_le hle)
  have hlook : ∀ x a, s'.locks.get? x = some a →
      x = sector ∧ a = addr ∨ s.locks.get? x = some a ∧ a ≠ addr := by
    intro x a ha
    by_cases hx : x = sector
    · exact .inl ⟨hx, hlocks a (hx ▸ ha)⟩
    · rw [hframe.locks x hx] at ha
      exact .inr ⟨ha, fun heq => hother x hx (heq ▸ ha)⟩
  refine ⟨fun x a ha => ?_, fun x x' a ha ha' => ?_, fun x => ?_⟩
  · rcases hlook x a ha with ⟨-, rfl⟩ | ⟨ha, -⟩
    · rcases haddr with haddr | ⟨-, hlt⟩
      · exact lt_of_lt_of_le (h.addr sector a haddr) hframe.next
      · exact hlt
    · exact lt_of_lt_of_le (h.addr x a ha) hframe.next
  · rcases hlook x a ha with ⟨rfl, rfl⟩ | ⟨ha, hne⟩ <;>
      rcases hlook x' a ha' with ⟨rfl, heq⟩ | ⟨ha', hne'⟩
    · rfl
    · exact absurd rfl hne'
    · exact absurd heq hne
    · exact h.distinct x x' a ha ha'
  · by_cases hx : x = sector
    · exact hx ▸ hsector
    · exact hframe.sectorInv hx (hother x hx) (h.sector x)

/-! ## Calls that change -/

/-- A call of a sector is put in the place of another one, or is new. -/
theorem frame_insert (hc : c.sector = sector)
    (hold : ∀ c₀, s.calls.get? id = some c₀ → c₀.sector = sector) :
    Frame s ((s.setRecord addr l).setCall id c) sector addr where
  next := le_refl _
  locks _ _ := rfl
  records a ha := Function.update_of_ne ha _ _
  calls id' c' hne := by
    dsimp only [setCall, setRecord]
    rw [get?_insert]
    split
    · next heq =>
      subst heq
      refine iff_of_false (fun hsome => hne ?_) fun hsome => hne (hold c' hsome)
      rw [← some.inj hsome]
      exact hc
    · rfl
  total w hw := by
    dsimp only [setCall, setRecord]
    cases hid : s.calls.get? id with
    | none =>
      rw [total_insert_of_none w hid, hw c hc]
      omega
    | some c₀ =>
      have hsum := total_insert_of_some w hid c
      rw [hw c hc, hw c₀ (hold c₀ hid), zero_add, zero_add] at hsum
      exact hsum
  failed _ _ := rfl

theorem frame_erase {records : Nat → SectorLock} {locks : Table SectorID Nat}
    {failed : List SectorID} (hid : s.calls.get? id = some c) (hc : c.sector = sector)
    (hlocks : ∀ x, x ≠ sector → locks.get? x = s.locks.get? x)
    (hrecords : ∀ a, a ≠ addr → records a = s.records a)
    (hfailed : ∀ x, x ≠ sector → failed.count x = s.failed.count x) :
    Frame s ⟨locks, records, s.nextAddr, s.calls.erase id, failed⟩ sector addr where
  next := le_refl _
  locks := hlocks
  records := hrecords
  calls id' c' hne := by
    rw [get?_erase]
    split
    · next heq =>
      subst heq
      refine iff_of_false (fun hsome => by cases hsome) fun hsome => hne ?_
      rw [← mem_unique hid hsome]
      exact hc
    · rfl
  total w hw := by
    rw [total_erase w hid, hw c hc, zero_add]
  failed := hfailed

/-! ## Starting a call -/

theorem record_cases (h : LockInv s) :
    LockInv (s.record sector).2 ∧ (s.record sector).2.locks.get? sector = some (s.record sector).1 ∧
      (s.record sector).2.calls = s.calls ∧ (s.record sector).2.failed = s.failed ∧
      ∀ x, x ≠ sector → (s.record sector).2.locks.get? x = s.locks.get? x := by
  unfold record
  split
  · next addr hlook => exact ⟨h, hlook, rfl, rfl, fun _ _ => rfl⟩
  · next hnone =>
    have hframe : ∀ x, x ≠ sector →
        (s.locks.insert sector s.nextAddr).get? x = s.locks.get? x := fun x hx => by
      rw [get?_insert, if_neg hx]
    have hself : (s.locks.insert sector s.nextAddr).get? sector = some s.nextAddr :=
      get?_insert_self
    have hcalls : ∀ id c, s.calls.get? id = some c → c.sector ≠ sector := by
      intro id c hc hsector
      have hsome := (h.sector sector).call id c hc hsector
      rw [hnone] at hsome
      cases hsome
    have hfailed : s.failed.count sector = 0 :=
      count_eq_zero.mpr fun hmem => (h.sector sector).failed hmem hnone
    have hzero : ∀ w : LockCall → Nat, (∀ c, c.sector ≠ sector → w c = 0) →
        s.calls.total w = 0 := fun w hw =>
      (total_eq_zero_iff w).mpr fun id c hc => hw c (hcalls id c hc)
    refine ⟨h.of_frame sector s.nextAddr ?_ (.inr ⟨le_refl _, ?_⟩) ?_ ?_, hself, rfl, rfl, hframe⟩
    · exact ⟨Nat.le_succ _, hframe, fun a ha => Function.update_of_ne ha _ _, fun _ _ _ => Iff.rfl,
        fun _ _ => rfl, fun _ _ => rfl⟩
    · exact Nat.lt_succ_self _
    · intro a ha
      exact mem_unique ha hself
    · refine ⟨fun id c hc hsector => absurd hsector (hcalls id c hc), fun _ => ?_, ?_,
        fun id _ c _ hc _ hsector => absurd hsector (hcalls id c hc.1)⟩
      · rw [hself]
        exact some_ne_none _
      · intro a ha
        obtain rfl : a = s.nextAddr := mem_unique ha hself
        dsimp only [setRecord]
        rw [Function.update_self]
        refine ⟨?_, fun i => ?_, fun j => ?_⟩
        · unfold refsOf
          rw [hfailed, hzero (refWeight sector) fun c hc => if_neg hc]
        · exact (hzero _ fun c hc => if_neg fun hw => hc hw.2.1).symm
        · simp only [BitVec.getLsbD_zero, Bool.false_eq_true, false_iff, not_exists]
          rintro id c ⟨hholds, hsector, -⟩
          exact hcalls id c hholds.1 hsector

theorem total_insert_same {w : LockCall → Nat} (hid : s.calls.get? id = some c)
    (hw : w c = w c') : s.calls.total w = (s.calls.insert id c').total w := by
  have hsum := total_insert_of_some w hid c'
  rw [hw] at hsum
  exact (Nat.add_left_cancel hsum).symm

theorem refsOf_setCall (hid : s.calls.get? id = some c)
    (hsector : c'.sector = c.sector) (addr : Nat) (l : SectorLock) (x : SectorID) :
    refsOf ((s.setRecord addr l).setCall id c') x = refsOf s x := by
  refine congrArg (· + s.failed.count x) (total_insert_same hid ?_).symm
  unfold refWeight
  rw [hsector]

theorem holds_insert : IndexLocks.Holds ((s.setRecord addr l).setCall id c) id' c' ↔
      (id' = id ∧ c' = c ∧ c.phase = .granted) ∨ (id' ≠ id ∧ s.Holds id' c') := by
  unfold IndexLocks.Holds
  dsimp only [setCall, setRecord]
  rw [get?_insert]
  split
  · next heq =>
    rw [some.injEq]
    constructor
    · rintro ⟨rfl, hphase⟩
      exact .inl ⟨heq, rfl, hphase⟩
    · rintro (⟨-, rfl, hphase⟩ | ⟨hne, -⟩)
      · exact ⟨rfl, hphase⟩
      · exact absurd heq hne
  · next hne =>
    constructor
    · exact fun hholds => .inr ⟨hne, hholds⟩
    · rintro (⟨heq, -, -⟩ | ⟨-, hholds⟩)
      · exact absurd heq hne
      · exact hholds

/-- A call that has no lock, before and after, does not change the holders. -/
theorem holds_insert_waiting (hphase : c.phase ≠ .granted)
    (hold : ∀ c₀, s.calls.get? id = some c₀ → c₀.phase ≠ .granted) :
    IndexLocks.Holds ((s.setRecord addr l).setCall id c) id' c' ↔ s.Holds id' c' := by
  rw [holds_insert]
  constructor
  · rintro (⟨-, -, hgranted⟩ | ⟨-, hholds⟩)
    · exact absurd hgranted hphase
    · exact hholds
  · intro hholds
    refine .inr ⟨fun heq => ?_, hholds⟩
    subst heq
    exact hold c' hholds.1 hholds.2

/-- Two calls do not want the same file types where one of them writes. -/
def Compatible (c c' : LockCall) : Prop :=
  (∀ j, c.write.getLsbD j = true → c'.write.getLsbD j = false) ∧
    ∀ i, c.write.all i = true → c'.read.all i = false

/-- A call of a sector with a record is put in. -/
theorem LockInv.insert (h : LockInv s) (c : LockCall) (hlook : s.locks.get? c.sector = some c.slk)
    (hold : ∀ c₀, s.calls.get? id = some c₀ → c₀.sector = c.sector)
    (hrecord : RecordOk ((s.setRecord c.slk l).setCall id c) c.sector l)
    (hexcl : c.phase = .granted → ∀ id' c', s.Holds id' c' → c'.sector = c.sector → id' ≠ id →
      Compatible c c' ∧ Compatible c' c) :
    LockInv ((s.setRecord c.slk l).setCall id c) := by
  have hinv := h.sector c.sector
  refine h.of_frame c.sector c.slk (frame_insert rfl hold) (.inl hlook)
    (fun a ha => mem_unique ha hlook)
    ⟨forall_insert (fun _ => hlook) hinv.call, hinv.failed, ?_, ?_⟩
  · intro a ha
    obtain rfl : a = c.slk := mem_unique ha hlook
    have hself : ((s.setRecord c.slk l).setCall id c).records c.slk = l :=
      Function.update_self _ _ _
    rw [hself]
    exact hrecord
  · intro id₁ id₂ c₁ c₂ h₁ h₂ hsector₁ hsector₂ hne
    rcases holds_insert.mp h₁ with ⟨rfl, rfl, hphase⟩ | ⟨hne₁, hold₁⟩
    · rcases holds_insert.mp h₂ with ⟨rfl, -⟩ | ⟨hne₂, hold₂⟩
      · exact absurd rfl hne
      · exact (hexcl hphase id₂ c₂ hold₂ hsector₂ hne₂).1
    · rcases holds_insert.mp h₂ with ⟨rfl, rfl, hphase⟩ | ⟨-, hold₂⟩
      · exact (hexcl hphase id₁ c₁ hold₁ hsector₁ hne₁).2
      · exact hinv.excl id₁ id₂ c₁ c₂ hold₁ hold₂ hsector₁ hsector₂ hne

theorem LockInv.start (h : LockInv s) {phase : LockPhase} (hid : s.calls.get? id = none)
    (hphase : phase ≠ .granted) (sector : SectorID) (read write : SectorFileType) :
    LockInv (s.start id phase sector read write) := by
  obtain ⟨h₁, hlook, hcalls, -, -⟩ := record_cases h
  unfold IndexLocks.start
  generalize s.record sector = rec at h₁ hlook hcalls
  obtain ⟨addr, t⟩ := rec
  dsimp only at h₁ hlook hcalls ⊢
  rw [← hcalls] at hid
  have hrecord := (h₁.sector sector).record addr hlook
  have hnew : ∀ c₀, t.calls.get? id = some c₀ → False := fun c₀ hc₀ =>
    nomatch hid.symm.trans hc₀
  refine h₁.insert ⟨sector, read, write, addr, phase⟩ hlook (fun c₀ hc₀ => (hnew c₀ hc₀).elim)
    ⟨?_, fun i => ?_, fun j => ?_⟩ fun hgranted => absurd hgranted hphase
  · show (t.records addr).refs + 1 =
      (t.calls.insert id _).total (refWeight sector) + t.failed.count sector
    rw [total_insert_of_none _ hid, hrecord.refs, refWeight, if_pos rfl]
    unfold refsOf
    omega
  · show (t.records addr).r i = (t.calls.insert id _).total (readWeight sector i)
    rw [total_insert_of_none _ hid, hrecord.r i, readWeight,
      if_neg fun hw => hphase hw.1, zero_add]
    rfl
  · simp only [holds_insert_waiting (c := ⟨sector, read, write, addr, phase⟩) hphase
      fun c₀ hc₀ => (hnew c₀ hc₀).elim]
    exact hrecord.w j

/-! ## Trying to lock -/

/-- A lock that the record allows does not conflict with the holders. -/
theorem compatible_of_canLock
    (hrecord : RecordOk s c.sector l) (hcan : l.canLock c.read c.write = true)
    (hholds : s.Holds id' c') (hsector : c'.sector = c.sector) :
    Compatible c c' ∧ Compatible c' c := by
  obtain ⟨hread, hr, hw⟩ : _ ∧ _ ∧ _ := of_decide_eq_true hcan
  have hwrite : ∀ j, c'.write.getLsbD j = true → l.w.getLsbD j = true := fun j hj =>
    (hrecord.w j).mpr ⟨id', c', hholds, hsector, hj⟩
  refine ⟨⟨fun j hj => ?_, fun i hi => ?_⟩, fun j hj => ?_, fun i hi => ?_⟩
  all_goals rw [Bool.eq_false_iff]
  · exact fun hj' => (and_eq_zero_iff _ _).mp hw j ⟨hwrite j hj', hj⟩
  · intro hi'
    refine hread i ⟨hi, ?_⟩
    have hle := le_total (readWeight c.sector i) hholds.1
    rw [readWeight, if_pos ⟨hholds.2, hsector, hi'⟩] at hle
    rw [hrecord.r i]
    exact hle
  · exact fun hj' => (and_eq_zero_iff _ _).mp hw j ⟨hwrite j hj, hj'⟩
  · intro hi'
    rw [SectorFileType.all_eq] at hi hi'
    exact (and_eq_zero_iff _ _).mp hr i ⟨hwrite i hi, hi'⟩

theorem LockInv.grant (h : LockInv s) (hid : s.calls.get? id = some c)
    (hphase : c.phase ≠ .granted) (htry : (s.records c.slk).tryLock c.read c.write = some l) :
    LockInv ((s.setRecord c.slk l).setCall id { c with phase := .granted }) := by
  obtain ⟨hlook, hrecord⟩ := h.of_call hid
  obtain ⟨hcan, hl⟩ := ite_none_right_eq_some.mp htry
  obtain rfl := some.inj hl
  refine h.insert { c with phase := .granted } hlook (fun c₀ hc₀ => ?_)
    ⟨?_, fun i => ?_, fun j => ?_⟩ fun _ id' c' hholds hsector _ =>
      compatible_of_canLock (c := { c with phase := .granted }) hrecord hcan hholds hsector
  · rw [← mem_unique hid hc₀]
  · exact hrecord.refs.trans (refsOf_setCall hid rfl _ _ _).symm
  · show (if c.read.all i = true then _ else _) =
      (s.calls.insert id _).total (readWeight c.sector i)
    have hsum := total_insert_of_some (readWeight c.sector i) hid { c with phase := .granted }
    have hbefore : readWeight c.sector i c = 0 := if_neg fun hw => hphase hw.1
    have hafter : readWeight c.sector i { c with phase := .granted } =
        if c.read.all i = true then 1 else 0 := by
      unfold readWeight
      simp
    rw [hbefore, hafter] at hsum
    rw [hrecord.r i, readers]
    split_ifs at hsum ⊢ <;> omega
  · rw [BitVec.getLsbD_or, Bool.or_eq_true_iff, hrecord.w j]
    constructor
    · rintro (⟨id', c', hholds, hsector, hbit⟩ | hbit)
      · refine ⟨id', c', holds_insert.mpr (.inr ⟨fun heq => ?_, hholds⟩), hsector, hbit⟩
        subst heq
        exact hphase (mem_unique hid hholds.1 ▸ hholds.2)
      · exact ⟨id, _, holds_insert.mpr (.inl ⟨rfl, rfl, rfl⟩), rfl, hbit⟩
    · rintro ⟨id', c', hholds, hsector, hbit⟩
      rcases holds_insert.mp hholds with ⟨-, rfl, -⟩ | ⟨-, hold⟩
      · exact .inr hbit
      · exact .inl ⟨id', c', hold, hsector, hbit⟩

theorem LockInv.wait (h : LockInv s) (hid : s.calls.get? id = some c)
    (hphase : c.phase ≠ .granted) : LockInv (s.setCall id { c with phase := .waiting }) := by
  obtain ⟨hlook, hrecord⟩ := h.of_call hid
  have hsame : s.setCall id { c with phase := .waiting } =
      (s.setRecord c.slk (s.records c.slk)).setCall id { c with phase := .waiting } := by
    unfold setRecord
    rw [Function.update_eq_self]
  rw [hsame]
  refine h.insert { c with phase := .waiting } hlook (fun c₀ hc₀ => ?_)
    ⟨?_, fun i => ?_, fun j => ?_⟩ fun hgranted => nomatch hgranted
  · rw [← mem_unique hid hc₀]
  · exact hrecord.refs.trans (refsOf_setCall hid rfl _ _ _).symm
  · refine (hrecord.r i).trans (total_insert_same hid ?_)
    unfold readWeight
    rw [if_neg fun hw => hphase hw.1, if_neg fun hw => nomatch hw.1]
  · have hold : ∀ c₀, s.calls.get? id = some c₀ → c₀.phase ≠ .granted := fun c₀ hc₀ =>
      mem_unique hid hc₀ ▸ hphase
    simp only [holds_insert_waiting (c := { c with phase := .waiting }) nofun hold]
    exact hrecord.w j

/-! ## Calls that end -/

section

variable (ht : t.calls = s.calls.erase id)
include ht

theorem holds_erase : t.Holds id' c' ↔ id' ≠ id ∧ s.Holds id' c' := by
  unfold IndexLocks.Holds
  rw [ht, get?_erase]
  split
  · next heq => exact iff_of_false (fun hholds => by cases hholds.1) fun hholds => hholds.1 heq
  · next hne => exact ⟨fun hholds => ⟨hne, hholds⟩, fun hholds => hholds.2⟩

/-- A call that ends without a lock does not change the holders. -/
theorem holds_erase_waiting (hid : s.calls.get? id = some c) (hphase : c.phase ≠ .granted) :
    t.Holds id' c' ↔ s.Holds id' c' := by
  rw [holds_erase ht]
  refine and_iff_right_of_imp fun hholds heq => ?_
  subst heq
  exact hphase (mem_unique hid hholds.1 ▸ hholds.2)

theorem call_erase (hc' : t.calls.get? id' = some c') : s.calls.get? id' = some c' := by
  rw [ht, get?_erase_eq_some] at hc'
  exact hc'.2

end

/-- The record is only deleted when no reference is left. -/
theorem get?_release (x : SectorID) : (s.release id c).locks.get? x =
    if x = c.sector ∧ (s.records c.slk).refs - 1 = 0 then none else s.locks.get? x := by
  have hlocks : (s.release id c).locks =
      if (s.records c.slk).refs - 1 = 0 then s.locks.erase c.sector else s.locks := rfl
  rw [hlocks]
  by_cases hzero : (s.records c.slk).refs - 1 = 0
  · simp only [hzero, and_true, if_true, get?_erase]
  · simp only [hzero, and_false, if_false]

section

variable (hid : s.calls.get? id = some c)
include hid

theorem refsOf_fail (x : SectorID) : refsOf (s.fail id c) x = refsOf s x := by
  show (s.calls.erase id).total (refWeight x) + (c.sector :: s.failed).count x = _
  rw [refsOf, total_erase (refWeight x) hid, count_cons, refWeight]
  by_cases hx : c.sector = x
  · simp [hx]
    omega
  · simp [hx]

theorem LockInv.fail (h : LockInv s) (hphase : c.phase ≠ .granted) : LockInv (s.fail id c) := by
  have hinv := h.sector c.sector
  obtain ⟨hlook, hrecord⟩ := h.of_call hid
  have hcalls : (s.fail id c).calls = s.calls.erase id := rfl
  refine h.of_frame c.sector c.slk (frame_erase hid rfl (fun _ _ => rfl) (fun _ _ => rfl) ?_)
    (.inl hlook) (fun a ha => mem_unique ha hlook) ⟨?_, fun _ => ?_, ?_, ?_⟩
  · intro x hx
    rw [count_cons_of_ne hx.symm]
  · exact fun id' c' hc' => hinv.call id' c' (call_erase hcalls hc')
  · exact fun hnone => nomatch hnone.symm.trans hlook
  · intro a ha
    obtain rfl : a = c.slk := mem_unique ha hlook
    refine ⟨hrecord.refs.trans (refsOf_fail hid _).symm, fun i => ?_, fun j => ?_⟩
    · refine (hrecord.r i).trans ?_
      show _ = (s.calls.erase id).total (readWeight c.sector i)
      rw [readers, total_erase _ hid, readWeight, if_neg fun hw => hphase hw.1, zero_add]
    · simp only [holds_erase_waiting hcalls hid hphase]
      exact hrecord.w j
  · intro id₁ id₂ c₁ c₂ h₁ h₂
    exact hinv.excl id₁ id₂ c₁ c₂ ((holds_erase hcalls).mp h₁).2 ((holds_erase hcalls).mp h₂).2

theorem refsOf_release (x : SectorID) :
    refsOf s x = refWeight x c + refsOf (s.release id c) x := by
  show _ = refWeight x c + ((s.calls.erase id).total (refWeight x) + s.failed.count x)
  rw [refsOf, total_erase (refWeight x) hid]
  omega

/-- What the record counts after the release. -/
theorem RecordOk.release (h : RecordOk s c.sector l) (hinv : SectorInv s c.sector)
    (hphase : c.phase = .granted) :
    RecordOk (s.release id c) c.sector { l.unlock c.read c.write with refs := l.refs - 1 } := by
  have hcalls : (s.release id c).calls = s.calls.erase id := rfl
  refine ⟨?_, fun i => ?_, fun j => ?_⟩
  · rw [h.refs, refsOf_release hid, refWeight, if_pos rfl, Nat.add_sub_cancel_left]
  · show (if c.read.all i = true then _ else _) = (s.calls.erase id).total (readWeight c.sector i)
    rw [h.r i, readers, total_erase _ hid, readWeight]
    simp only [hphase, true_and]
    split
    · exact Nat.add_sub_cancel_left _ _
    · exact zero_add _
  · show (l.w &&& ~~~c.write).getLsbD j = true ↔ _
    rw [BitVec.getLsbD_and, Bool.and_eq_true_iff, h.w j]
    constructor
    · rintro ⟨⟨id', c', hholds, hsector, hbit⟩, hnot⟩
      refine ⟨id', c', (holds_erase hcalls).mpr ⟨fun heq => ?_, hholds⟩, hsector, hbit⟩
      subst heq
      obtain rfl := mem_unique hid hholds.1
      rw [BitVec.getLsbD_not, hbit] at hnot
      simp at hnot
    · rintro ⟨id', c', hholds, hsector, hbit⟩
      obtain ⟨hne, hold⟩ := (holds_erase hcalls).mp hholds
      refine ⟨⟨id', c', hold, hsector, hbit⟩, ?_⟩
      have hfree := (hinv.excl id' id c' c hold ⟨hid, hphase⟩ hsector rfl hne).1 j hbit
      rw [BitVec.getLsbD_not, hfree]
      simpa using BitVec.lt_of_getLsbD hbit

/-- The last reference takes the record with it. -/
theorem LockInv.release (h : LockInv s) (hphase : c.phase = .granted) :
    LockInv (s.release id c) := by
  have hinv := h.sector c.sector
  obtain ⟨hlook, hrecord⟩ := h.of_call hid
  have hrecord := hrecord.release hid hinv hphase
  have hcalls : (s.release id c).calls = s.calls.erase id := rfl
  have hother : ∀ x, x ≠ c.sector → (s.release id c).locks.get? x = s.locks.get? x := by
    intro x hx
    rw [get?_release, if_neg fun hand => hx hand.1]
  have hslk : ∀ a, (s.release id c).locks.get? c.sector = some a → a = c.slk := by
    intro a ha
    rw [get?_release] at ha
    split at ha
    · cases ha
    · exact mem_unique ha hlook
  have hkept : 0 < refsOf (s.release id c) c.sector →
      (s.release id c).locks.get? c.sector = some c.slk := by
    intro hpos
    rw [get?_release, if_neg fun hand => ne_of_gt hpos (hrecord.refs.symm.trans hand.2)]
    exact hlook
  refine h.of_frame c.sector c.slk (frame_erase hid rfl hother
    (fun a ha => Function.update_of_ne ha _ _) fun _ _ => rfl) (.inl hlook) hslk ⟨?_, ?_, ?_, ?_⟩
  · intro id' c' hc' hsector
    have hpos := le_total (refWeight c.sector) hc'
    rw [refWeight, if_pos hsector] at hpos
    have hslk' := hinv.call id' c' (call_erase hcalls hc') hsector
    rw [hkept (Nat.add_pos_left hpos _)]
    exact hlook.symm.trans hslk'
  · intro hmem
    rw [hkept (Nat.add_pos_right _ (count_pos_iff.mpr hmem))]
    exact some_ne_none _
  · intro a ha
    obtain rfl := hslk a ha
    have hself : (s.release id c).records c.slk = { (s.records c.slk).unlock c.read c.write with
        refs := (s.records c.slk).refs - 1 } := Function.update_self _ _ _
    rw [hself]
    exact hrecord
  · intro id₁ id₂ c₁ c₂ h₁ h₂
    exact hinv.excl id₁ id₂ c₁ c₂ ((holds_erase hcalls).mp h₁).2 ((holds_erase hcalls).mp h₂).2

end

/-! ## Events -/

theorem lockStep_cases (h : lockStep s event = some s') : s' = s ∨
    (∃ id phase sector read write, s.calls.get? id = none ∧ phase ≠ .granted ∧
      s' = s.start id phase sector read write) ∨
    ∃ id c, s.calls.get? id = some c ∧
      ((c.phase ≠ .granted ∧
        ((∃ slk, (s.records c.slk).tryLock c.read c.write = some slk ∧
            s' = (s.setRecord c.slk slk).setCall id { c with phase := .granted }) ∨
          s' = s.setCall id { c with phase := .waiting } ∨ s' = s.fail id c)) ∨
        (c.phase = .granted ∧ s' = s.release id c)) := by
  cases event with
  | start id phase sector read write =>
    dsimp only [lockStep] at h
    split at h
    · cases h
    next hnew =>
    simp only [not_or, not_not] at hnew
    split at h
    · exact .inl (some.inj h).symm
    · split at h
      · exact .inl (some.inj h).symm
      · exact .inr (.inl ⟨id, phase, sector, read, write, hnew.1, hnew.2.2,
          (some.inj h).symm⟩)
  | attempt id =>
    dsimp only [lockStep] at h
    split at h
    · cases h
    next c hid =>
    split at h
    · cases h
    next hphase =>
    refine .inr (.inr ⟨id, c, hid, .inl ⟨hphase, ?_⟩⟩)
    split at h
    · next slk hslk => exact .inl ⟨slk, hslk, (some.inj h).symm⟩
    · split at h
      · exact .inr (.inr (some.inj h).symm)
      · exact .inr (.inl (some.inj h).symm)
  | cancel id =>
    dsimp only [lockStep] at h
    split at h
    · cases h
    next c hid =>
    obtain ⟨hphase, hs'⟩ := ite_none_right_eq_some.mp h
    refine .inr (.inr ⟨id, c, hid, .inl ⟨?_, .inr (.inr (some.inj hs').symm)⟩⟩)
    rw [hphase]
    exact LockPhase.noConfusion
  | release id =>
    dsimp only [lockStep] at h
    split at h
    · cases h
    next c hid =>
    obtain ⟨hphase, hs'⟩ := ite_none_right_eq_some.mp h
    exact .inr (.inr ⟨id, c, hid, .inr ⟨hphase, (some.inj hs').symm⟩⟩)

theorem LockInv.step (h : LockInv s) (hstep : lockStep s event = some s') : LockInv s' := by
  obtain rfl | ⟨id, phase, sector, read, write, hid, hphase, rfl⟩ | ⟨id, c, hid,
    ⟨hphase, ⟨slk, hslk, rfl⟩ | rfl | rfl⟩ | ⟨hphase, rfl⟩⟩ := lockStep_cases hstep
  · exact h
  · exact h.start hid hphase sector read write
  · exact h.grant hid hphase hslk
  · exact h.wait hid hphase
  · exact h.fail hid hphase
  · exact h.release hid hphase

/-- A record in the map has references. -/
def Referenced (s : IndexLocks) : Prop :=
  ∀ sector addr, s.locks.get? sector = some addr → 0 < refsOf s sector

theorem Referenced.start (hinv : LockInv s) (h : Referenced s) (hid : s.calls.get? id = none)
    (phase : LockPhase) (sector : SectorID) (read write : SectorFileType) :
    Referenced (s.start id phase sector read write) := by
  obtain ⟨-, -, hcalls, hfailed, hlocks⟩ := record_cases hinv
  unfold IndexLocks.start
  generalize s.record sector = rec at hcalls hfailed hlocks
  obtain ⟨addr, t⟩ := rec
  intro x a ha
  show 0 < (t.calls.insert id _).total (refWeight x) + t.failed.count x
  rw [hcalls, hfailed, total_insert_of_none _ hid]
  by_cases hx : x = sector
  · rw [refWeight, if_pos hx.symm]
    omega
  · have hpos : 0 < refsOf s x := h x a ((hlocks x hx).symm.trans ha)
    unfold refsOf at hpos
    omega

theorem Referenced.release (hinv : LockInv s) (h : Referenced s) (hid : s.calls.get? id = some c) :
    Referenced (s.release id c) := by
  obtain ⟨-, hrecord⟩ := hinv.of_call hid
  intro x a ha
  have hrefs := refsOf_release hid x
  rw [get?_release] at ha
  split at ha
  · cases ha
  next hkept =>
  by_cases hx : x = c.sector
  · subst hx
    rw [← hrecord.refs, refWeight, if_pos rfl] at hrefs
    have hleft : (s.records c.slk).refs - 1 ≠ 0 := fun hzero => hkept ⟨rfl, hzero⟩
    omega
  · have hpos := h x a ha
    rw [refWeight, if_neg fun heq => hx heq.symm, zero_add] at hrefs
    exact hrefs ▸ hpos

theorem Referenced.congr (h : Referenced s) (hlocks : t.locks = s.locks)
    (hrefs : ∀ x, refsOf t x = refsOf s x) : Referenced t := by
  intro x a ha
  rw [hrefs]
  exact h x a (hlocks ▸ ha)

theorem Referenced.step (hinv : LockInv s) (h : Referenced s)
    (hstep : lockStep s event = some s') : Referenced s' := by
  obtain rfl | ⟨id, phase, sector, read, write, hid, hphase, rfl⟩ | ⟨id, c, hid,
    ⟨hphase, ⟨slk, hslk, rfl⟩ | rfl | rfl⟩ | ⟨hphase, rfl⟩⟩ := lockStep_cases hstep
  · exact h
  · exact h.start hinv hid phase sector read write
  · exact h.congr rfl (refsOf_setCall hid rfl c.slk slk)
  · exact h.congr rfl (refsOf_setCall hid rfl c.slk (s.records c.slk))
  · exact h.congr rfl (refsOf_fail hid)
  · exact h.release hinv hid

theorem lockInv_new : LockInv newIndexLocks where
  addr _ _ h := nomatch h
  distinct _ _ _ h := nomatch h
  sector _ :=
    { call _ _ h := nomatch h
      failed h := nomatch h
      record _ h := nomatch h
      excl _ _ _ _ h := nomatch h.1 }

theorem trace_lockInv
    (hrun : trace lockStep newIndexLocks events = some states) :
    ∀ s ∈ states, LockInv s ∧ Referenced s :=
  trace_forall (P := fun s => LockInv s ∧ Referenced s)
    (fun _ _ _ h hstep => ⟨h.1.step hstep, h.2.step h.1 hstep⟩)
    ⟨lockInv_new, fun _ _ h => nomatch h⟩ hrun

end IndexLocksLemmas

open IndexLocksLemmas in
/-- In every interleaving of calls, waits that are cancelled and releases, over any sectors:
a file type of a sector that a holder has locked for writing is not locked by another holder,
for reading or for writing. -/
theorem exclusive_locks
    (hrun : trace lockStep newIndexLocks events = some states) :
    ∀ s ∈ states, ∀ (sector : SectorID) (i : Fin fileTypes) (id : Nat) (c : LockCall),
      s.Holds id c → c.sector = sector → c.write.all i = true →
        ∀ id' c', s.Holds id' c' → c'.sector = sector → id' ≠ id →
          c'.write.all i = false ∧ c'.read.all i = false := by
  intro s hs sector i id c hholds hsector hwrite id' c' hholds' hsector' hne
  obtain ⟨hinv, -⟩ := trace_lockInv hrun s hs
  obtain ⟨hww, hwr⟩ :=
    (hinv.sector sector).excl id id' c c' hholds hholds' hsector hsector' hne.symm
  refine ⟨?_, hwr i hwrite⟩
  rw [SectorFileType.all_eq] at hwrite ⊢
  exact hww i hwrite

def sectorOne : SectorID := ⟨1000, 1⟩

/-- Two calls read the sealed file while a third one waits to write it. It gets the lock when
both are released, and the record is deleted after it. A fourth call makes a new record. -/
def readersThenWriter : List LockEvent :=
  [.start 0 .locking sectorOne ftSealed ftNone, .attempt 0,
    .start 1 .trying sectorOne ftSealed ftUnsealed, .attempt 1,
    .start 2 .locking sectorOne ftNone ftSealed, .attempt 2,
    .release 0, .attempt 2, .release 1, .attempt 2, .release 2,
    .start 3 .trying sectorOne ftNone ftSealed, .attempt 3]

theorem exclusive_locks_writer :
    ∃ states, trace lockStep newIndexLocks readersThenWriter = some states ∧
      ((∃ s ∈ states, (s.calls.get? 2).map (·.phase) = some .waiting) ∧
        ∃ s ∈ states, (s.calls.get? 3).map (fun c => (c.slk, c.phase)) = some (1, .granted)) ∧
      ∀ s ∈ states, ∀ (sector : SectorID) (i : Fin fileTypes) (id : Nat) (c : LockCall),
        s.Holds id c → c.sector = sector → c.write.all i = true →
          ∀ id' c', s.Holds id' c' → c'.sector = sector → id' ≠ id →
            c'.write.all i = false ∧ c'.read.all i = false :=
  exists_trace_and (by decide) fun _ hrun => exclusive_locks hrun

open IndexLocksLemmas in
/-- Once every granted lock is released and no call is under way, the map of locks is empty
exactly if no call has failed. -/
theorem locks_deleted_iff
    (hrun : trace lockStep newIndexLocks events = some states) :
    ∀ s ∈ states, s.calls.size = 0 → (s.locks.size = 0 ↔ s.failed = []) := by
  intro s hs hcalls
  obtain ⟨hinv, href⟩ := trace_lockInv hrun s hs
  rw [Table.size_eq_zero_iff]
  constructor
  · intro hempty
    refine eq_nil_iff_forall_not_mem.mpr fun sector hmem => ?_
    exact (hinv.sector sector).failed hmem (hempty sector)
  · intro hfailed sector
    by_contra hne
    obtain ⟨addr, haddr⟩ := ne_none_iff_exists'.mp hne
    have hpos := href sector addr haddr
    have hzero : s.calls.total (refWeight sector) = 0 :=
      (Table.total_eq_zero_iff _).mpr fun id c hc =>
        nomatch (Table.size_eq_zero_iff.mp hcalls id).symm.trans hc
    unfold refsOf at hpos
    rw [hzero, hfailed] at hpos
    exact lt_irrefl 0 hpos

theorem locks_deleted_iff_released :
    ∃ states, trace lockStep newIndexLocks
        [.start 0 .locking sectorOne ftSealed ftNone, .attempt 0, .release 0] = some states ∧
      (∃ s ∈ states, s.calls.size = 0 ∧ s.failed = [] ∧ s.nextAddr = 1) ∧
      ∀ s ∈ states, s.calls.size = 0 → (s.locks.size = 0 ↔ s.failed = []) :=
  exists_trace_and (by decide) fun _ hrun => locks_deleted_iff hrun

/-- A second call is refused while the first one has the lock. When the first one is released
the record stays. -/
theorem refused_try_leaks :
    ∃ states, trace lockStep newIndexLocks
        [.start 0 .trying sectorOne ftNone ftSealed, .attempt 0,
          .start 1 .trying sectorOne ftNone ftSealed, .attempt 1, .release 0] = some states ∧
      ∃ s, states.getLast? = some s ∧ s.calls.size = 0 ∧ s.locks.size = 1 := by
  refine ⟨_, rfl, _, rfl, ?_, ?_⟩
  · rfl
  · rfl

end OpenDsn.Paths
