import OpenDsn.Lib.Run
import OpenDsn.Lib.Table

/-!
# The autobatch blockstore

`blockstore/autobatch.go`: blocks that are put go to a buffer in memory; a
background worker, or a call of `Flush`, moves the buffered batch into the
backing store. A batch that could not be written stays and is tried again.

The state lock guards the batches, the flush lock makes flushes one at a time.
A run is a list of steps of concurrent calls. `Put` holds the state lock all the
way, so it is one step. A flush is cut where it takes or releases the state lock
and where it calls the backing store, whose `PutMany` may fail. A read is cut in
the same way: `Get` reads the backing store without a lock, then looks into the
batches under the state lock, and if the block is not there it calls itself
while it still holds the lock.

* `readStep_cases`, `flushStep_cases`: what a step of a call can do;
* `flushInv_step`: whatever is put is in the backing store or in a batch, and a
  flush that ends without an error has brought to the backing store what was put
  before it.
-/

namespace OpenDsn.Blockstore

open Lib List Option

variable {Cid : Type}

/-! ## Blocks and batches -/

/-- A block. Its CID is a hash, so the data are the ones that belong to it. -/
structure Block (content : Cid → List UInt8) where
  cid : Cid
  rawData : List UInt8
  addressed : rawData = content cid

theorem Block.eq_of_cid {content : Cid → List UInt8} {b b' : Block content} (h : b.cid = b'.cid) :
    b = b' := by
  obtain ⟨c, d, hd⟩ := b
  obtain ⟨c', d', hd'⟩ := b'
  subst h hd hd'
  rfl

variable (content : Cid → List UInt8)

/-- The same set of blocks twice: in order for flushing, and as a map. -/
structure BlockBatch where
  blockList : List (Block content)
  blockMap : Table Cid (Block content)

/-! ## The concurrent calls -/

inductive GetError
  /-- `ipld.IsNotFound` -/
  | notFound
  | other

inductive ReadOp
  | get
  | has
  | getSize
  | view

/-- What a read answers to its caller. -/
inductive Answer
  | block (b : Block content)
  | has (b : Bool)
  | size (n : Nat)
  /-- The data that the callback of `View` was called with. -/
  | viewed (data : List UInt8)
  | err (e : GetError)

/-- `Get`, `Has`, `GetSize` and `View` on what the inner `Get` returned. -/
def ReadOp.answer {content : Cid → List UInt8} :
    ReadOp → Except GetError (Block content) → Answer content
  | .get, .ok b => .block b
  | .has, .ok _ => .has true
  | .getSize, .ok b => .size b.rawData.length
  | .view, .ok b => .viewed b.rawData
  | .has, .error .notFound => .has false
  | _, .error e => .err e

inductive ReaderPc
  /-- At the `Get` of the backing store. -/
  | readBacking
  /-- At the state lock. -/
  | locking
  | returned (r : Except GetError (Block content))

structure Reader where
  op : ReadOp
  cid : Cid
  pc : ReaderPc content

inductive FlusherPc
  /-- At the flush lock. -/
  | waiting
  /-- At the `PutMany` of a batch that failed before. -/
  | retrying
  /-- At the state lock, to take the buffered batch. -/
  | taking
  /-- At the `PutMany` of the batch that was taken. -/
  | putting
  /-- At the state lock, to drop the batch that was written. -/
  | clearing
  | returned (failed : Bool)
deriving DecidableEq

/-- A call of `doFlush`. The CIDs put before it started are noted for the
statements below. -/
structure Flusher (Cid : Type) where
  retryOnly : Bool
  before : List Cid
  pc : FlusherPc

inductive Worker
  | idle
  /-- In the `doFlush` of this number. -/
  | flushing (flusher : Nat)
  /-- Waits to retry a flush that failed. -/
  | retrying
deriving DecidableEq

structure Autobatch where
  addedCids : List Cid
  bufferedBatch : BlockBatch content
  flushingBatch : BlockBatch content
  /-- `flushErr != nil` -/
  flushErr : Bool
  flushCh : Bool
  bufferCapacity : Nat
  bufferSize : Nat
  backingBs : Table Cid (Block content)
  /-- The reader that holds the state lock between its steps. -/
  stateLock : Option Nat
  /-- The flusher that holds the flush lock. -/
  doFlushLock : Option Nat
  readers : List (Reader content)
  flushers : List (Flusher Cid)
  worker : Worker

/-- The answer of the backing store's `PutMany`: a call that fails may have
written some blocks. -/
inductive PutMany
  | ok
  | failed (written : Nat)

def PutMany.isFailed : PutMany → Bool
  | .ok => false
  | .failed _ => true

inductive Step
  | put (b : Block content)
  /-- A read is called. -/
  | read (op : ReadOp) (c : Cid)
  | readStep (reader : Nat)
  /-- The backing store fails to read. -/
  | readFails (reader : Nat)
  /-- `Flush` is called. -/
  | flush
  /-- The worker receives from `flushCh`. -/
  | wake
  /-- The worker's retry delay is over. -/
  | retry
  | flushStep (flusher : Nat) (putMany : PutMany)

variable {content}

namespace Autobatch

def empty : BlockBatch content := ⟨[], ∅⟩

def new (bufferCapacity : Nat) (backing : Table Cid (Block content)) : Autobatch content :=
  { addedCids := []
    bufferedBatch := empty
    flushingBatch := empty
    flushErr := false
    flushCh := false
    bufferCapacity := bufferCapacity
    bufferSize := 0
    backingBs := backing
    stateLock := none
    doFlushLock := none
    readers := []
    flushers := []
    worker := .idle }

variable [DecidableEq Cid]

section

variable (s : Autobatch content)

/-- `Put`, under the state lock. -/
def put (b : Block content) : Autobatch content :=
  if b.cid ∈ s.addedCids then s
  else
    let size := s.bufferSize + b.rawData.length
    { s with
      addedCids := b.cid :: s.addedCids
      bufferedBatch :=
        { blockList := s.bufferedBatch.blockList ++ [b]
          blockMap := s.bufferedBatch.blockMap.insert b.cid b }
      bufferSize := size
      -- The channel has room for one signal.
      flushCh := s.flushCh || decide (s.bufferCapacity ≤ size) }

def setReader (i : Nat) (r : Reader content) : Autobatch content :=
  { s with readers := s.readers.set i r }

/-- The deferred unlocks of a read that returns. -/
def unlock (i : Nat) : Autobatch content :=
  if s.stateLock = some i then { s with stateLock := none } else s

/-- One step of `Get`. -/
def readStep (i : Nat) : Option (Autobatch content) := do
  let r ← s.readers[i]?
  match r.pc with
  | .readBacking =>
      match s.backingBs.get? r.cid with
      | some b => some ((s.setReader i { r with pc := .returned (.ok b) }).unlock i)
      | none => some (s.setReader i { r with pc := .locking })
  | .locking =>
      -- The lock is not reentrant: a read that holds it waits for itself.
      if s.stateLock.isSome then none
      else
        match s.flushingBatch.blockMap.get? r.cid with
        | some b => some (s.setReader i { r with pc := .returned (.ok b) })
        | none =>
            match s.bufferedBatch.blockMap.get? r.cid with
            | some b => some (s.setReader i { r with pc := .returned (.ok b) })
            | none =>
                -- `return bs.Get(ctx, c)`, before the deferred unlock.
                some { s.setReader i { r with pc := .readBacking } with stateLock := some i }
  | .returned _ => none

/-- The read of the backing store ends in another error. -/
def readFails (i : Nat) : Option (Autobatch content) := do
  let r ← s.readers[i]?
  match r.pc with
  | .readBacking => some ((s.setReader i { r with pc := .returned (.error .other) }).unlock i)
  | _ => none

def putMany (backing : Table Cid (Block content)) (blocks : List (Block content)) :
    PutMany → Table Cid (Block content)
  | .ok => blocks.foldl (fun t b => t.insert b.cid b) backing
  | .failed n => (blocks.take n).foldl (fun t b => t.insert b.cid b) backing

/-- `PutMany` of the flushing batch, with its error kept. -/
def putFlushing (out : PutMany) : Autobatch content :=
  { s with
    backingBs := putMany s.backingBs s.flushingBatch.blockList out
    flushErr := out.isFailed }

def startFlush (retryOnly : Bool) : Autobatch content :=
  { s with flushers := s.flushers ++ [⟨retryOnly, s.addedCids, .waiting⟩] }

def setFlusher (j : Nat) (f : Flusher Cid) : Autobatch content :=
  { s with flushers := s.flushers.set j f }

/-- `doFlush` returns `bs.flushErr`, and the worker, if the call was its own,
goes on. -/
def endFlush (j : Nat) (f : Flusher Cid) : Autobatch content :=
  { s.setFlusher j { f with pc := .returned s.flushErr } with
    doFlushLock := none
    worker :=
      if s.worker = .flushing j then (if s.flushErr then .retrying else .idle) else s.worker }

/-- After the retry: "If we failed, or we're _only_ retrying, bail." -/
def afterRetry (j : Nat) (f : Flusher Cid) : Autobatch content :=
  if f.retryOnly || s.flushErr then s.endFlush j f else s.setFlusher j { f with pc := .taking }

/-- One step of `doFlush`. -/
def flushStep (j : Nat) (out : PutMany) : Option (Autobatch content) := do
  let f ← s.flushers[j]?
  match f.pc with
  | .waiting =>
      if s.doFlushLock.isSome then none
      else
        let s := { s with doFlushLock := some j }
        if s.flushErr then some (s.setFlusher j { f with pc := .retrying })
        else some (s.afterRetry j f)
  | .retrying => some ((s.putFlushing out).afterRetry j f)
  | .taking =>
      if s.stateLock.isSome then none
      else
        some ({ s with
          flushingBatch := s.bufferedBatch
          bufferedBatch := empty }.setFlusher j { f with pc := .putting })
  | .putting =>
      let s := s.putFlushing out
      if s.flushErr then some (s.endFlush j f)
      else some (s.setFlusher j { f with pc := .clearing })
  | .clearing =>
      if s.stateLock.isSome then none
      else some ({ s with flushingBatch := empty }.endFlush j f)
  | .returned _ => none

def step : Step content → Option (Autobatch content)
  | .put b => if s.stateLock.isSome then none else some (s.put b)
  | .read op c => some { s with readers := s.readers ++ [⟨op, c, .readBacking⟩] }
  | .readStep i => s.readStep i
  | .readFails i => s.readFails i
  | .flush => some (s.startFlush false)
  | .wake =>
      if s.worker = .idle ∧ s.flushCh then
        some { s.startFlush false with flushCh := false, worker := .flushing s.flushers.length }
      else none
  | .retry =>
      if s.worker = .retrying then
        some { s.startFlush true with worker := .flushing s.flushers.length }
      else none
  | .flushStep j out => s.flushStep j out

/-! ## What a step can do -/

/-- The block is in the backing store or in one of the batches. -/
def Holds (c : Cid) : Prop :=
  (s.backingBs.get? c).isSome ∨ (s.flushingBatch.blockMap.get? c).isSome ∨
    (s.bufferedBatch.blockMap.get? c).isSome

end

instance (s : Autobatch content) (c : Cid) : Decidable (s.Holds c) :=
  inferInstanceAs (Decidable (_ ∨ _ ∨ _))

inductive ReadCase (s : Autobatch content) (i : Nat) (r : Reader content) :
    Autobatch content → Prop
  | found (b) : r.pc = .readBacking → s.backingBs.get? r.cid = some b →
      ReadCase s i r ((s.setReader i { r with pc := .returned (.ok b) }).unlock i)
  | miss : r.pc = .readBacking → s.backingBs.get? r.cid = none →
      ReadCase s i r (s.setReader i { r with pc := .locking })
  | batched (b) : r.pc = .locking → s.stateLock = none →
      (s.flushingBatch.blockMap.get? r.cid = some b ∨
        s.bufferedBatch.blockMap.get? r.cid = some b) →
      ReadCase s i r (s.setReader i { r with pc := .returned (.ok b) })
  | again : r.pc = .locking → s.stateLock = none →
      s.flushingBatch.blockMap.get? r.cid = none → s.bufferedBatch.blockMap.get? r.cid = none →
      ReadCase s i r { s.setReader i { r with pc := .readBacking } with stateLock := some i }

theorem readStep_cases {s s' : Autobatch content} {i : Nat} (h : s.readStep i = some s') :
    ∃ r, s.readers[i]? = some r ∧ ReadCase s i r s' := by
  obtain ⟨r, hr, h⟩ := bind_eq_some_iff.mp h
  refine ⟨r, hr, ?_⟩
  cases hpc : r.pc with
  | readBacking =>
    simp only [hpc] at h
    cases hb : s.backingBs.get? r.cid with
    | some b => rw [hb] at h; cases h; exact .found b hpc hb
    | none => rw [hb] at h; cases h; exact .miss hpc hb
  | locking =>
    simp only [hpc] at h
    split at h
    · cases h
    next hlock =>
    have hfree : s.stateLock = none := by simpa using hlock
    cases hf : s.flushingBatch.blockMap.get? r.cid with
    | some b => rw [hf] at h; cases h; exact .batched b hpc hfree (.inl hf)
    | none =>
      rw [hf] at h
      cases hb : s.bufferedBatch.blockMap.get? r.cid with
      | some b => rw [hb] at h; cases h; exact .batched b hpc hfree (.inr hb)
      | none => rw [hb] at h; cases h; exact .again hpc hfree hf hb
  | returned x => simp only [hpc] at h; cases h

inductive FlushCase (s : Autobatch content) (j : Nat) (out : PutMany) (f : Flusher Cid) :
    Autobatch content → Prop
  | again : f.pc = .waiting → s.doFlushLock = none → s.flushErr = true →
      FlushCase s j out f
        ({ s with doFlushLock := some j }.setFlusher j { f with pc := .retrying })
  | enter : f.pc = .waiting → s.doFlushLock = none → s.flushErr = false →
      FlushCase s j out f ({ s with doFlushLock := some j }.afterRetry j f)
  | retry : f.pc = .retrying → FlushCase s j out f ((s.putFlushing out).afterRetry j f)
  | take : f.pc = .taking → s.stateLock = none →
      FlushCase s j out f
        ({ s with flushingBatch := s.bufferedBatch, bufferedBatch := empty }.setFlusher j
          { f with pc := .putting })
  | putFailed : f.pc = .putting → out.isFailed = true →
      FlushCase s j out f ((s.putFlushing out).endFlush j f)
  | putDone : f.pc = .putting → out.isFailed = false →
      FlushCase s j out f ((s.putFlushing out).setFlusher j { f with pc := .clearing })
  | clear : f.pc = .clearing → s.stateLock = none →
      FlushCase s j out f ({ s with flushingBatch := empty }.endFlush j f)

theorem flushStep_cases {s s' : Autobatch content} {j : Nat} {out : PutMany}
    (h : s.flushStep j out = some s') :
    ∃ f, s.flushers[j]? = some f ∧ FlushCase s j out f s' := by
  obtain ⟨f, hf, h⟩ := bind_eq_some_iff.mp h
  refine ⟨f, hf, ?_⟩
  cases hpc : f.pc with
  | waiting =>
    simp only [hpc] at h
    split at h
    · cases h
    next hlock =>
    have hfree : s.doFlushLock = none := by simpa using hlock
    split at h
    · next herr => cases h; exact .again hpc hfree herr
    · next herr => cases h; exact .enter hpc hfree (Bool.eq_false_iff.mpr herr)
  | retrying => simp only [hpc] at h; cases h; exact .retry hpc
  | taking =>
    simp only [hpc] at h
    split at h
    · cases h
    · next hlock => cases h; exact .take hpc (by simpa using hlock)
  | putting =>
    simp only [hpc] at h
    split at h
    · next herr => cases h; exact .putFailed hpc herr
    · next herr => cases h; exact .putDone hpc (Bool.eq_false_iff.mpr herr)
  | clearing =>
    simp only [hpc] at h
    split at h
    · cases h
    · next hlock => cases h; exact .clear hpc (by simpa using hlock)
  | returned x => simp only [hpc] at h; cases h

/-! ## The flushes lose nothing -/

/-- The calls that are past the flush lock and have not returned. -/
def active : FlusherPc → Bool
  | .waiting => false
  | .returned _ => false
  | _ => true

/-- What is in the map is in the list, under its own CID. -/
def BatchOk (batch : BlockBatch content) : Prop :=
  ∀ c b, batch.blockMap.get? c = some b → b.cid = c ∧ b ∈ batch.blockList

/-- The flushing batch has been written, or there is none: no flush is between
taking a batch and writing it, and none has failed to. -/
def Settled (s : Autobatch content) : Prop :=
  match s.doFlushLock with
  | none => s.flushErr = false
  | some j => ∃ f, s.flushers[j]? = some f ∧ (f.pc = .taking ∨ f.pc = .clearing)

/-- How far a flush has come with the blocks that were put before it. -/
def Progress (s : Autobatch content) (f : Flusher Cid) : Prop :=
  match f.pc with
  | .waiting => True
  | .retrying => True
  | .taking => f.retryOnly = false
  | .putting => f.retryOnly = false ∧ ∀ c ∈ f.before,
      (s.backingBs.get? c).isSome ∨ (s.flushingBatch.blockMap.get? c).isSome
  | .clearing => f.retryOnly = false ∧ ∀ c ∈ f.before, (s.backingBs.get? c).isSome
  | .returned failed =>
      failed = false → f.retryOnly = false → ∀ c ∈ f.before, (s.backingBs.get? c).isSome

/-- The part of the invariant that a flush step can change. -/
structure DataInv (s : Autobatch content) : Prop where
  backed : ∀ c b, s.backingBs.get? c = some b → b.cid = c
  buffered : BatchOk s.bufferedBatch
  flushing : BatchOk s.flushingBatch
  added : ∀ c ∈ s.addedCids, s.Holds c

structure FlushInv (s : Autobatch content) : Prop extends DataInv s where
  flushed : s.Settled → ∀ b ∈ s.flushingBatch.blockList, (s.backingBs.get? b.cid).isSome
  active : ∀ j f, s.flushers[j]? = some f → active f.pc → s.doFlushLock = some j
  before : ∀ f ∈ s.flushers, ∀ c ∈ f.before, c ∈ s.addedCids
  progress : ∀ f ∈ s.flushers, s.Progress f

namespace AutobatchLemmas

open Table

variable {t : Table Cid (Block content)} {l : List (Block content)} {out : PutMany}

theorem isSome_foldl_insert {c : Cid}
    (h : (t.get? c).isSome) : ((l.foldl (fun t b => t.insert b.cid b) t).get? c).isSome := by
  induction l generalizing t with
  | nil => exact h
  | cons b l ih =>
    refine ih ?_
    rw [get?_insert]
    split
    · rfl
    · exact h

theorem backed_foldl_insert (h : ∀ c b, t.get? c = some b → b.cid = c) :
    ∀ c b, (l.foldl (fun t b => t.insert b.cid b) t).get? c = some b → b.cid = c := by
  induction l generalizing t with
  | nil => exact h
  | cons b l ih => exact ih (forall_insert rfl h)

theorem isSome_putMany {c : Cid} (h : (t.get? c).isSome) : ((putMany t l out).get? c).isSome := by
  cases out with
  | ok | failed n => exact isSome_foldl_insert h

theorem isSome_putMany_of_mem (hout : out.isFailed = false) {b : Block content} (h : b ∈ l) :
    ((putMany t l out).get? b.cid).isSome := by
  cases out with
  | ok =>
    exact isSome_of_eq_some
      (get?_foldl_insert_of_mem h rfl fun b' _ hb' => Block.eq_of_cid hb')
  | failed n => cases hout

/-- What each step does. -/
inductive StepCase (s : Autobatch content) : Step content → Autobatch content → Prop
  | put (b) : s.stateLock = none → StepCase s (.put b) (s.put b)
  | read (op c) : StepCase s (.read op c) { s with readers := s.readers ++ [⟨op, c, .readBacking⟩] }
  | readStep (i s') : s.readStep i = some s' → StepCase s (.readStep i) s'
  | readFails (i s') : s.readFails i = some s' → StepCase s (.readFails i) s'
  | start (e retryOnly ch worker) :
      StepCase s e { s.startFlush retryOnly with flushCh := ch, worker := worker }
  | flushStep (j out s') : s.flushStep j out = some s' → StepCase s (.flushStep j out) s'

variable {s s' : Autobatch content} {j : Nat} {f : Flusher Cid} {e : Step content}

variable (s s' j f) in
/-- Flusher `j`, with no other flusher past the lock, brings the store from `s`
to `s'`. -/
structure FlushTo : Prop where
  inv : FlushInv s
  flusher : s.flushers[j]? = some f
  own : ∀ k f', s.flushers[k]? = some f' → active f'.pc → k = j
  added : s'.addedCids = s.addedCids
  grows : ∀ c, (s.backingBs.get? c).isSome → (s'.backingBs.get? c).isSome
  data : DataInv s'

theorem flushInv_of_set (g : Flusher Cid)
    (h : FlushTo s s' j f) (hset : s'.flushers = s.flushers.set j g) (hbefore : g.before = f.before)
    (hflushed : s'.Settled → ∀ b ∈ s'.flushingBatch.blockList, (s'.backingBs.get? b.cid).isSome)
    (hlock : active g.pc → s'.doFlushLock = some j) (hprogress : s'.Progress g) :
    FlushInv s' where
  __ := h.data
  flushed := hflushed
  active k f' hf' hactive := by
    rw [hset] at hf'
    rcases getElem?_set_cases hf' with ⟨rfl, rfl⟩ | ⟨hk, hf'⟩
    · exact hlock hactive
    · exact absurd (h.own k f' hf' hactive) hk
  before := by
    rw [h.added, hset]
    refine forall_mem_set h.inv.before ?_
    rw [hbefore]
    exact h.inv.before f (mem_of_getElem? h.flusher)
  progress f' hf' := by
    obtain ⟨k, hk⟩ := mem_iff_getElem?.mp hf'
    rw [hset] at hk
    rcases getElem?_set_cases hk with ⟨-, rfl⟩ | ⟨hne, hk⟩
    · exact hprogress
    · -- It has not got the lock, or has returned, and sees only that the backing store grows.
      have hkept := h.inv.progress f' (mem_of_getElem? hk)
      have hown := fun hactive => hne (h.own k f' hk hactive)
      unfold Progress at hkept ⊢
      cases hpc : f'.pc with
      | waiting => trivial
      | returned failed =>
        rw [hpc] at hkept
        exact fun hfailed hretry c hc => h.grows c (hkept hfailed hretry c hc)
      | retrying | taking | putting | clearing => rw [hpc] at hown; cases hown rfl

theorem own_of_free (h : FlushInv s) (hfree : s.doFlushLock = none)
    (j : Nat) : ∀ k f', s.flushers[k]? = some f' → active f'.pc → k = j := by
  intro k f' hf' hactive
  have hlock := h.active k f' hf' hactive
  rw [hfree] at hlock
  cases hlock

theorem own_of_active (h : FlushInv s) (hf : s.flushers[j]? = some f) (hpc : active f.pc) :
    ∀ k f', s.flushers[k]? = some f' → active f'.pc → k = j := by
  intro k f' hf' hactive
  have hlock := h.active k f' hf' hactive
  rw [h.active j f hf hpc] at hlock
  exact (some.inj hlock).symm

omit [DecidableEq Cid] in
/-- The lock holder alone decides whether the flushing batch is written. -/
theorem settled_set {g : Flusher Cid} (h : s'.Settled)
    (hf : s.flushers[j]? = some f) (hset : s'.flushers = s.flushers.set j g)
    (hlock : s'.doFlushLock = some j) : g.pc = .taking ∨ g.pc = .clearing := by
  have hlt := (List.getElem?_eq_some_iff.mp hf).1
  unfold Settled at h
  simpa only [hset, hlock, List.getElem?_set_self hlt, some.injEq, exists_eq_left'] using h

section

variable {s s₀ : Autobatch content} {j : Nat} {f : Flusher Cid} (h : FlushTo s₀ s j f)
  (hflushers : s.flushers = s₀.flushers)
  (hflushed : s.flushErr = false → ∀ b ∈ s.flushingBatch.blockList, (s.backingBs.get? b.cid).isSome)
include h hflushers hflushed

/-- The end of a flush: the batch is written unless an error is kept. -/
theorem flushInv_endFlush (hdone : s.flushErr = false → f.retryOnly = false →
      ∀ c ∈ f.before, (s.backingBs.get? c).isSome) : FlushInv (s.endFlush j f) :=
  flushInv_of_set (f := f) { f with pc := .returned s.flushErr }
    { h with data := { h.data with } }
    (congrArg (fun l => l.set j { f with pc := .returned s.flushErr }) hflushers) rfl
    hflushed (fun h => by cases h) hdone

/-- After the retry, with the flushing batch written unless an error is kept. -/
theorem flushInv_afterRetry (hlock : s.doFlushLock = some j) : FlushInv (s.afterRetry j f) := by
  unfold afterRetry
  split
  · next hbail =>
    refine flushInv_endFlush h hflushers hflushed ?_
    -- Without an error only a retry bails out.
    intro herr hretry
    rw [herr, hretry] at hbail
    cases hbail
  · next hgo =>
    simp only [Bool.or_eq_true, not_or, Bool.not_eq_true] at hgo
    exact flushInv_of_set (f := f) { f with pc := .taking }
      { h with data := { h.data with } }
      (congrArg (fun l => l.set j { f with pc := .taking }) hflushers) rfl
      (fun _ => hflushed hgo.2) (fun _ => hlock) hgo.1

end

theorem dataInv_putFlushing (h : DataInv s) (out : PutMany) : DataInv (s.putFlushing out) where
  __ := h
  backed := by
    cases out <;> exact backed_foldl_insert h.backed
  added c hc := by
    rcases h.added c hc with hc | hc
    · exact .inl (isSome_putMany hc)
    · exact .inr hc

theorem mem_blockList {batch : BlockBatch content} (h : BatchOk batch) {c : Cid}
    (hc : (batch.blockMap.get? c).isSome) : ∃ b ∈ batch.blockList, b.cid = c := by
  obtain ⟨b, hb⟩ := isSome_iff_exists.mp hc
  exact ⟨b, (h c b hb).2, (h c b hb).1⟩

omit [DecidableEq Cid] in
theorem settled_of_lock (hlock : s.doFlushLock = some j) (hf : s.flushers[j]? = some f)
    (hpc : f.pc = .taking ∨ f.pc = .clearing) : s.Settled := by
  unfold Settled
  rw [hlock]
  exact ⟨f, hf, hpc⟩

theorem isSome_of_settled (h : FlushInv s) (hsettled : s.Settled) {c : Cid}
    (hc : (s.flushingBatch.blockMap.get? c).isSome) : (s.backingBs.get? c).isSome := by
  obtain ⟨b, hb, rfl⟩ := mem_blockList h.flushing hc
  exact h.flushed hsettled b hb

theorem batchOk_empty : BatchOk (empty : BlockBatch content) := fun c b h => by cases h

section

variable (h : FlushInv s)
include h

theorem flushInv_flushStep (hs : s.flushStep j out = some s') : FlushInv s' := by
  have hkeep : ∀ c, (s.backingBs.get? c).isSome → (s.backingBs.get? c).isSome := fun _ hc => hc
  have hgrow : ∀ c, (s.backingBs.get? c).isSome → ((s.putFlushing out).backingBs.get? c).isSome :=
    fun _ => isSome_putMany
  have hdata := dataInv_putFlushing { h with } out
  obtain ⟨f, hf, hcase⟩ := flushStep_cases hs
  have hmem := mem_of_getElem? hf
  have hprog := h.progress f hmem
  unfold Progress at hprog
  cases hcase with
  | again hpc hfree _ =>
    refine flushInv_of_set { f with pc := .retrying }
      ⟨h, hf, own_of_free h hfree j, rfl, hkeep, { h with }⟩
      rfl rfl ?_ (fun _ => rfl) trivial
    intro hsettled
    rcases settled_set hsettled hf rfl rfl with hpc | hpc <;> cases hpc
  | enter _ hfree herr =>
    refine flushInv_afterRetry
      ⟨h, hf, own_of_free h hfree j, rfl, hkeep, { h with }⟩
      rfl ?_ rfl
    intro _
    refine h.flushed ?_
    unfold Settled
    rw [hfree]
    exact herr
  | retry hpc =>
    have hactive : active f.pc := by rw [hpc]; rfl
    exact flushInv_afterRetry ⟨h, hf, own_of_active h hf hactive, rfl, hgrow, hdata⟩ rfl
      (fun herr b hb => isSome_putMany_of_mem herr hb) (h.active j f hf hactive)
  | take hpc _ =>
    have hactive : active f.pc := by rw [hpc]; rfl
    have hlock := h.active j f hf hactive
    rw [hpc] at hprog
    -- The old flushing batch is written, so nothing is lost with it.
    have hmoved : ∀ c, s.Holds c →
        (s.backingBs.get? c).isSome ∨ (s.bufferedBatch.blockMap.get? c).isSome := by
      rintro c (hc | hc | hc)
      · exact .inl hc
      · exact .inl (isSome_of_settled h (settled_of_lock hlock hf (.inl hpc)) hc)
      · exact .inr hc
    refine flushInv_of_set { f with pc := .putting }
      ⟨h, hf, own_of_active h hf hactive, rfl, hkeep, h.backed, batchOk_empty, h.buffered,
        fun c hc => ?_⟩ rfl rfl ?_ (fun _ => hlock)
      ⟨hprog, fun c hc => hmoved c (h.added c (h.before f hmem c hc))⟩
    · rcases hmoved c (h.added c hc) with hc | hc
      · exact .inl hc
      · exact .inr (.inl hc)
    · intro hsettled
      rcases settled_set hsettled hf rfl hlock with hpc | hpc <;> cases hpc
  | putFailed hpc herr =>
    have hno : ¬ (s.putFlushing out).flushErr = false := by
      rw [show (s.putFlushing out).flushErr = true from herr]
      nofun
    exact flushInv_endFlush ⟨h, hf, own_of_active h hf (by rw [hpc]; rfl), rfl, hgrow, hdata⟩ rfl
      (fun hok => absurd hok hno) (fun hok => absurd hok hno)
  | putDone hpc herr =>
    have hactive : active f.pc := by rw [hpc]; rfl
    rw [hpc] at hprog
    refine flushInv_of_set { f with pc := .clearing }
      ⟨h, hf, own_of_active h hf hactive, rfl, hgrow, { hdata with }⟩ rfl rfl
      (fun _ b hb => isSome_putMany_of_mem herr hb)
      (fun _ => h.active j f hf hactive) ⟨hprog.1, fun c hc => ?_⟩
    rcases hprog.2 c hc with hc | hc
    · exact isSome_putMany hc
    · obtain ⟨b, hb, rfl⟩ := mem_blockList h.flushing hc
      exact isSome_putMany_of_mem herr hb
  | clear hpc _ =>
    have hactive : active f.pc := by rw [hpc]; rfl
    rw [hpc] at hprog
    have hsettled := settled_of_lock (h.active j f hf hactive) hf (.inr hpc)
    refine flushInv_endFlush
      ⟨h, hf, own_of_active h hf hactive, rfl, hkeep, h.backed, h.buffered, batchOk_empty,
        fun c hc => ?_⟩ rfl (fun _ b hb => by cases hb) (fun _ _ => hprog.2)
    rcases h.added c hc with hc | hc | hc
    · exact .inl hc
    · exact .inl (isSome_of_settled h hsettled hc)
    · exact .inr (.inr hc)

theorem flushInv_put (b : Block content) : FlushInv (s.put b) := by
  unfold put
  split
  · exact h
  · have hholds : ∀ c, s.Holds c →
        (s.backingBs.get? c).isSome ∨ (s.flushingBatch.blockMap.get? c).isSome ∨
          ((s.bufferedBatch.blockMap.insert b.cid b).get? c).isSome := by
      rintro c (hc | hc | hc)
      · exact .inl hc
      · exact .inr (.inl hc)
      · refine .inr (.inr ?_)
        rw [get?_insert]
        split
        · rfl
        · exact hc
    exact
      { h with
        buffered := forall_insert ⟨rfl, mem_append_right _ mem_cons_self⟩ fun c b' hb' =>
          ⟨(h.buffered c b' hb').1, mem_append_left _ (h.buffered c b' hb').2⟩
        added := by
          intro c hc
          rcases mem_cons.mp hc with rfl | hc
          · refine .inr (.inr ?_)
            rw [get?_insert, if_pos rfl]
            rfl
          · exact hholds c (h.added c hc)
        before f hf c hc := mem_cons_of_mem _ (h.before f hf c hc) }

theorem flushInv_startFlush (retryOnly : Bool) : FlushInv (s.startFlush retryOnly) where
  __ := h
  flushed hsettled := by
    refine h.flushed ?_
    unfold Settled at hsettled ⊢
    cases hlock : s.doFlushLock with
    | none =>
      rw [show (s.startFlush retryOnly).doFlushLock = none from hlock] at hsettled
      exact hsettled
    | some j =>
      rw [show (s.startFlush retryOnly).doFlushLock = some j from hlock] at hsettled
      obtain ⟨f, hf, hpc⟩ := hsettled
      rcases getElem?_concat_cases hf with hf | ⟨-, rfl⟩
      · exact ⟨f, hf, hpc⟩
      · rcases hpc with hpc | hpc <;> cases hpc
  active j f hf hactive := by
    rcases getElem?_concat_cases hf with hf | ⟨-, rfl⟩
    · exact h.active j f hf hactive
    · cases hactive
  before := forall_mem_snoc h.before fun _ hc => hc
  progress := forall_mem_snoc h.progress trivial

/-- The readers and what belongs to the worker are no part of the invariant. -/
theorem flushInv_frame (readers : List (Reader content)) {lock : Option Nat}
    {ch : Bool} {worker : Worker} :
    FlushInv { s with readers := readers, stateLock := lock, flushCh := ch, worker := worker } :=
  { h with }

theorem flushInv_unlock (i : Nat) : FlushInv (s.unlock i) := by
  unfold unlock
  split
  · exact flushInv_frame h _
  · exact h

theorem flushInv_readStep {i : Nat} (hs : s.readStep i = some s') : FlushInv s' := by
  obtain ⟨r, -, hcase⟩ := readStep_cases hs
  cases hcase with
  | found b _ _ => exact flushInv_unlock (flushInv_frame h _) i
  | miss hpc hb | batched b hpc hfree hb | again hpc hfree hf hb => exact flushInv_frame h _

end

omit [DecidableEq Cid] in
theorem readFails_eq {i : Nat} (hs : s.readFails i = some s') :
    ∃ r, s.readers[i]? = some r ∧ r.pc = .readBacking ∧
      s' = (s.setReader i { r with pc := .returned (.error .other) }).unlock i := by
  obtain ⟨r, hr, h⟩ := bind_eq_some_iff.mp hs
  cases hpc : r.pc with
  | readBacking => simp only [hpc] at h; cases h; exact ⟨r, hr, hpc, rfl⟩
  | locking | returned x => simp only [hpc] at h; cases h

theorem step_cases (h : s.step e = some s') : StepCase s e s' := by
  cases e with
  | put b =>
    simp only [step] at h
    split at h
    · cases h
    · next hfree => cases h; exact .put b (by simpa using hfree)
  | read op c => cases h; exact .read op c
  | readStep i => exact .readStep i s' h
  | readFails i => exact .readFails i s' h
  | flush => cases h; exact .start _ false _ _
  | wake =>
    simp only [step] at h
    split at h
    · cases h; exact .start _ false _ _
    · cases h
  | retry =>
    simp only [step] at h
    split at h
    · cases h; exact .start _ true _ _
    · cases h
  | flushStep j out => exact .flushStep j out s' h

theorem flushInv_new (bufferCapacity : Nat) {backing : Table Cid (Block content)}
    (hbacking : ∀ c b, backing.get? c = some b → b.cid = c) :
    FlushInv (new bufferCapacity backing) where
  backed := hbacking
  buffered := batchOk_empty
  flushing := batchOk_empty
  added c hc := by cases hc
  flushed _ b hb := by cases hb
  active j f hf := by cases hf
  before f hf := by cases hf
  progress f hf := by cases hf

theorem flushInv_step (h : FlushInv s) (hs : s.step e = some s') : FlushInv s' := by
  cases step_cases hs with
  | put b _ => exact flushInv_put h b
  | read op c => exact flushInv_frame h _
  | readStep i s' hread => exact flushInv_readStep h hread
  | readFails i s' hread =>
    obtain ⟨r, -, -, rfl⟩ := readFails_eq hread
    exact flushInv_unlock (flushInv_frame h _) i
  | start e retryOnly ch worker => exact flushInv_frame (flushInv_startFlush h retryOnly) _
  | flushStep j out s' hflush => exact flushInv_flushStep h hflush

end AutobatchLemmas

/-! ## The size of the buffer -/

def batchSize (batch : BlockBatch content) : Nat :=
  (batch.blockList.map fun b => b.rawData.length).sum

/-- `bufferSize` is the size of what is buffered, and `Put` asks for a flush only
when this has reached the capacity. -/
structure Measured (s : Autobatch content) : Prop where
  size : s.bufferSize = batchSize s.bufferedBatch
  request : ∀ b, (s.put b).flushCh = true →
    s.flushCh = true ∨ s.bufferCapacity ≤ batchSize (s.put b).bufferedBatch

/-- The step is not one with which a flush takes data out of the buffer. -/
def takesNothing (s : Autobatch content) : Step content → Bool
  | .flushStep j _ => !(s.flushers[j]?.any (·.pc = .taking)) || batchSize s.bufferedBatch = 0
  | _ => true

namespace AutobatchLemmas

variable {s s' : Autobatch content}

theorem batchSize_put {b : Block content} (hb : b.cid ∉ s.addedCids) :
    batchSize (s.put b).bufferedBatch = batchSize s.bufferedBatch + b.rawData.length := by
  rw [put, if_neg hb]
  simp [batchSize]

theorem measured_iff_size : Measured s ↔ s.bufferSize = batchSize s.bufferedBatch := by
  refine ⟨Measured.size, fun h => ⟨h, fun b hch => ?_⟩⟩
  by_cases hb : b.cid ∈ s.addedCids
  · rw [put, if_pos hb] at hch
    exact .inl hch
  · rw [batchSize_put hb, ← h]
    rw [put, if_neg hb] at hch
    exact (Bool.or_eq_true_iff.mp hch).imp id of_decide_eq_true

theorem size_step {e : Step content} (h : s.bufferSize = batchSize s.bufferedBatch)
    (hs : s.step e = some s') :
    s'.bufferSize = batchSize s'.bufferedBatch ↔ s.takesNothing e = true := by
  cases e with
  | put b =>
    obtain ⟨-, hs⟩ := ite_none_left_eq_some.mp hs
    cases hs
    refine iff_of_true ?_ rfl
    by_cases hb : b.cid ∈ s.addedCids
    · rwa [put, if_pos hb]
    · rw [batchSize_put hb, ← h, put, if_neg hb]
  | read | flush =>
    cases hs
    exact iff_of_true h rfl
  | wake | retry =>
    obtain ⟨-, hs⟩ := ite_none_right_eq_some.mp hs
    cases hs
    exact iff_of_true h rfl
  | readStep i =>
    refine iff_of_true ?_ rfl
    obtain ⟨r, -, hcase⟩ := readStep_cases hs
    cases hcase with
    | found => unfold unlock; split <;> exact h
    | miss | batched | again => exact h
  | readFails i =>
    obtain ⟨r, -, -, rfl⟩ := readFails_eq hs
    refine iff_of_true ?_ rfl
    unfold unlock
    split <;> exact h
  | flushStep j out =>
    obtain ⟨f, hf, hcase⟩ := flushStep_cases hs
    cases hcase with
    | take hpc _ =>
      -- the buffer is emptied, and the counter stays
      have htakes : s.takesNothing (.flushStep j out) = decide (batchSize s.bufferedBatch = 0) := by
        simp [takesNothing, hf, hpc]
      rw [htakes, decide_eq_true_iff, ← h]
      rfl
    | enter hpc | retry hpc =>
      refine iff_of_true ?_ (by simp [takesNothing, hf, hpc])
      unfold afterRetry
      split <;> exact h
    | again hpc | putFailed hpc | putDone hpc | clear hpc =>
      exact iff_of_true h (by simp [takesNothing, hf, hpc])

end AutobatchLemmas

open AutobatchLemmas in
/-- `doFlush` does not reset `bufferSize`: in a run the counter is right, in every state,
exactly when no flush takes data out of the buffer. -/
theorem measured_run_iff (bufferCapacity : Nat) (backing : Table Cid (Block content))
    {steps : List (Step content)} {states : List (Autobatch content)}
    (hrun : trace step (new bufferCapacity backing) steps = some states) :
    (∀ s ∈ states, Measured s) ↔
      Guarded step (fun s e => s.takesNothing e = true) (new bufferCapacity backing) steps := by
  simp only [measured_iff_size]
  exact trace_forall_iff (fun _ _ _ (_ : True) _ _ _ => trivial)
    (fun _ _ _ _ h hs => size_step h hs) trivial rfl hrun

/-- The contents of the examples: a CID is the byte it stands for. -/
abbrev byteContent (c : Nat) : List UInt8 := [c.toUInt8]

abbrev byteBlock (c : Nat) : Block byteContent := ⟨c, byteContent c, rfl⟩

/-- A flush of the empty buffer, and two blocks. -/
theorem measured_run_two :
    ∃ states, trace step (new 2 ∅ : Autobatch byteContent)
        [.flush, .flushStep 0 .ok, .flushStep 0 .ok, .flushStep 0 .ok, .flushStep 0 .ok,
          .put (byteBlock 1), .put (byteBlock 2)] = some states ∧ ∀ s ∈ states, Measured s :=
  exists_trace_of (by decide) fun _ hrun => (measured_run_iff 2 ∅ hrun).mpr (by decide)

/-- The first block has been flushed, and with the second one, half of what the buffer may
hold, `Put` asks for a flush. -/
theorem flush_requested_early :
    ∃ states, trace step (new 2 ∅ : Autobatch byteContent)
        [.put (byteBlock 1), .flush, .flushStep 0 .ok, .flushStep 0 .ok, .flushStep 0 .ok,
          .flushStep 0 .ok, .put (byteBlock 2)] = some states ∧
      ∃ s ∈ states, s.bufferSize = 2 ∧ batchSize s.bufferedBatch = 1 ∧ s.flushCh = true :=
  exists_trace (by decide)

end Autobatch

end OpenDsn.Blockstore
