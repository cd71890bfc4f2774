import OpenDsn.Blockstore.Autobatch

/-!
# Reading from the autobatch blockstore

`Get` of `blockstore/autobatch.go`, which `Has`, `GetSize` and `View` call. When
a block is in neither batch, `Get` calls itself under the state lock: either a
flush has brought the block to the backing store in between, or the second call
waits for the lock that the first one holds.

* `reads_return_iff`: no read of a block that is nowhere returns; with the lock free a
  read returns the right answer exactly when the block is somewhere;
* `put_block_unreachable`: a read that does not return keeps the state lock, and a
  block in the buffer is out of reach;
* `flushed_run`: no flush that returns without an error has left anything behind;
* `lossless_run`: as long as no read looks for a block that is nowhere, every
  read returns its block too.
-/

namespace OpenDsn.Blockstore

open Lib List

variable {Cid : Type} {content : Cid → List UInt8} [DecidableEq Cid]

namespace Autobatch

/-- What the store holds under a CID, in the order in which `Get` looks. -/
def lookup (s : Autobatch content) (c : Cid) : Except GetError (Block content) :=
  match s.backingBs.get? c, s.flushingBatch.blockMap.get? c, s.bufferedBatch.blockMap.get? c with
  | some b, _, _ => .ok b
  | none, some b, _ => .ok b
  | none, none, some b => .ok b
  | none, none, none => .error .notFound

/-- A run of steps. -/
def run (s : Autobatch content) (steps : List (Step content)) : Option (Autobatch content) :=
  steps.foldlM step s

/-- A read that starts now returns this answer and leaves the lock free, when
only reads go on. -/
def Reads (s : Autobatch content) (op : ReadOp) (c : Cid) (answer : Answer content) : Prop :=
  ∃ (schedule : List Nat) (s' : Autobatch content),
    s.run (.read op c :: schedule.map .readStep) = some s' ∧ s'.stateLock = none ∧
    ∃ r x, s'.readers[s.readers.length]? = some r ∧ r.pc = .returned x ∧ op.answer x = answer

/-- A read waits for the lock that it holds itself. -/
def Deadlocked (s : Autobatch content) (i : Nat) : Prop :=
  s.stateLock = some i ∧ ∃ r, s.readers[i]? = some r ∧ r.pc = .locking

variable {s s' : Autobatch content} {i k : Nat} {c : Cid} {r : Reader content} {op : ReadOp}
  {b : Block content}

namespace ReadLemmas

variable {r' : Reader content}

theorem run_cons {e : Step content} {steps : List (Step content)}
    (h : s.run (e :: steps) = some s') : ∃ t, s.step e = some t ∧ t.run steps = some s' := by
  exact Option.bind_eq_some_iff.mp h

section

omit [DecidableEq Cid]

theorem getElem?_setReader (h : s.readers[i]? = some r) :
    (s.setReader i r').readers[i]? = some r' :=
  List.getElem?_set_self (List.getElem?_eq_some_iff.mp h).1

@[simp] theorem unlock_readers (s : Autobatch content) (i : Nat) :
    (s.unlock i).readers = s.readers := by
  unfold unlock
  split <;> rfl

theorem getElem?_setReader_ne (h : s.readers[i]? = some r) (hne : k ≠ i) :
    (s.setReader k r').readers[i]? = some r := by
  show (s.readers.set k r')[i]? = some r
  rw [getElem?_set_ne hne, h]

@[simp] theorem unlock_backingBs (s : Autobatch content) (i : Nat) :
    (s.unlock i).backingBs = s.backingBs := by
  unfold unlock
  split <;> rfl

/-- Giving back the lock takes it from nobody else. -/
theorem unlock_eq_some_iff : (s.unlock k).stateLock = some i ↔ k ≠ i ∧ s.stateLock = some i := by
  unfold unlock
  split
  · next hown => simp [hown]
  · next hown => exact ⟨fun h => ⟨fun hk => hown (hk ▸ h), h⟩, And.right⟩

/-- The deadlocked read is not about to read the backing store. -/
theorem ne_of_readBacking
    (hr : s.readers[i]? = some r) (hpc : r.pc = .locking) (hr' : s.readers[k]? = some r')
    (hpc' : r'.pc = .readBacking) : k ≠ i := by
  rintro rfl
  cases hr.symm.trans hr'
  rw [hpc] at hpc'
  cases hpc'

end

variable (s c b) in
/-- What a look into the batches finds. -/
def Batched : Prop :=
  s.flushingBatch.blockMap.get? c = some b ∨
    s.flushingBatch.blockMap.get? c = none ∧ s.bufferedBatch.blockMap.get? c = some b

theorem batched_cases (s : Autobatch content) (c : Cid) : (∃ b, Batched s c b) ∨
    s.flushingBatch.blockMap.get? c = none ∧ s.bufferedBatch.blockMap.get? c = none := by
  cases hf : s.flushingBatch.blockMap.get? c with
  | some b => exact .inl ⟨b, .inl hf⟩
  | none =>
    cases hb : s.bufferedBatch.blockMap.get? c with
    | some b => exact .inl ⟨b, .inr ⟨hf, hb⟩⟩
    | none => exact .inr ⟨rfl, rfl⟩

theorem exists_batched (hholds : s.Holds c) (hb : s.backingBs.get? c = none) :
    ∃ b, Batched s c b := by
  refine (batched_cases s c).resolve_right fun ⟨hf, hbuf⟩ => ?_
  simp [Holds, hb, hf, hbuf] at hholds

theorem lookup_batched (hb : s.backingBs.get? c = none)
    (h : Batched s c b) : s.lookup c = .ok b := by
  rcases h with h | ⟨hf, h⟩
  · simp [lookup, hb, h]
  · simp [lookup, hb, hf, h]

/-- A read at the lock returns what one of the batches has. -/
theorem readStep_batched (hr : s.readers[i]? = some ⟨op, c, .locking⟩) (hfree : s.stateLock = none)
    (hb : Batched s c b) : s.readStep i = some (s.setReader i ⟨op, c, .returned (.ok b)⟩) := by
  rcases hb with hb | ⟨hf, hb⟩
  · simp [readStep, hr, hfree, hb]
  · simp [readStep, hr, hfree, hf, hb]

/-- A read at its first step, with the lock free, returns when the block is
somewhere. -/
theorem returns_of_holds (hr : s.readers[i]? = some ⟨op, c, .readBacking⟩)
    (hfree : s.stateLock = none) (hholds : s.Holds c) :
    ∃ (schedule : List Nat) (s' : Autobatch content),
      s.run (schedule.map .readStep) = some s' ∧ s'.stateLock = none ∧
      s'.readers[i]? = some ⟨op, c, .returned (s.lookup c)⟩ := by
  cases hb : s.backingBs.get? c with
  | some b =>
    refine ⟨[i], (s.setReader i ⟨op, c, .returned (.ok b)⟩).unlock i, ?_, ?_, ?_⟩
    · simp [run, step, readStep, hr, hb]
    · simp [unlock, setReader, hfree]
    · rw [unlock_readers, lookup, hb]; exact getElem?_setReader hr
  | none =>
    obtain ⟨b, hbatched⟩ := exists_batched hholds hb
    let t := s.setReader i ⟨op, c, .locking⟩
    have ht : t.readers[i]? = some ⟨op, c, .locking⟩ := getElem?_setReader hr
    have hmiss : s.readStep i = some t := by simp [readStep, hr, hb, t]
    refine ⟨[i, i], t.setReader i ⟨op, c, .returned (.ok b)⟩, ?_, hfree, ?_⟩
    · simp [run, step, hmiss, readStep_batched ht hfree hbatched]
    · rw [lookup_batched hb hbatched]; exact getElem?_setReader ht

theorem reads_of_holds (hfree : s.stateLock = none) (hholds : s.Holds c) :
    s.Reads op c (op.answer (s.lookup c)) := by
  have hstart : (s.readers ++ [⟨op, c, .readBacking⟩])[s.readers.length]? =
      some (⟨op, c, .readBacking⟩ : Reader content) := getElem?_concat_length
  obtain ⟨schedule, s', hrun, hlock, hr⟩ :=
    returns_of_holds (s := { s with readers := s.readers ++ [⟨op, c, .readBacking⟩] }) hstart hfree
      hholds
  exact ⟨schedule, s', hrun, hlock, _, _, hr, rfl, rfl⟩

theorem deadlocked_readStep (h : s.Deadlocked i)
    (hs : s.readStep k = some s') : s'.Deadlocked i := by
  obtain ⟨hlock, r, hr, hpc⟩ := h
  obtain ⟨r', hr', hcase⟩ := readStep_cases hs
  cases hcase with
  | found b hpc' _ =>
    have hk := ne_of_readBacking hr hpc hr' hpc'
    exact ⟨unlock_eq_some_iff.mpr ⟨hk, hlock⟩, r,
      by rw [unlock_readers]; exact getElem?_setReader_ne hr hk, hpc⟩
  | miss hpc' _ =>
    exact ⟨hlock, r, getElem?_setReader_ne hr (ne_of_readBacking hr hpc hr' hpc'), hpc⟩
  | batched b hpc' hfree hb | again hpc' hfree hf hb => rw [hlock] at hfree; cases hfree

variable (s i c) in
/-- A read of a block that is not in the backing store, and either nowhere else
or behind a lock that is never given back. -/
structure Searching : Prop where
  missing : s.backingBs.get? c = none
  hidden : ¬ s.Holds c ∨ ∃ k, s.Deadlocked k
  reader : ∃ r, s.readers[i]? = some r ∧ r.cid = c ∧ ∀ x, r.pc ≠ .returned x

/-- Reads change neither the batches nor the backing store. -/
theorem holds_readStep (hs : s.readStep k = some s') (c : Cid) : s'.Holds c ↔ s.Holds c := by
  obtain ⟨r, -, hcase⟩ := readStep_cases hs
  cases hcase with
  | found b _ _ =>
    unfold unlock
    split <;> exact Iff.rfl
  | miss _ _ => exact Iff.rfl
  | batched b _ _ _ => exact Iff.rfl
  | again _ _ _ _ => exact Iff.rfl

theorem searching_readStep (h : Searching s i c) (hs : s.readStep k = some s') :
    Searching s' i c := by
  have hhidden : ¬ s'.Holds c ∨ ∃ k, s'.Deadlocked k := h.hidden.imp
    (fun hnot hc => hnot ((holds_readStep hs c).mp hc))
    (fun ⟨j, hj⟩ => ⟨j, deadlocked_readStep hj hs⟩)
  obtain ⟨r, hr, hcid, hpc⟩ := h.reader
  obtain ⟨r', hr', hcase⟩ := readStep_cases hs
  have hmove : ∀ pc : ReaderPc content, (∀ x, pc ≠ .returned x) ∨ k ≠ i →
      ∃ r'', (s.setReader k { r' with pc := pc }).readers[i]? = some r'' ∧ r''.cid = c ∧
        ∀ x, r''.pc ≠ .returned x := by
    intro pc hpc'
    by_cases hk : k = i
    · subst hk
      cases hr.symm.trans hr'
      exact ⟨_, getElem?_setReader hr, hcid, hpc'.resolve_right (fun hne => hne rfl)⟩
    · exact ⟨r, getElem?_setReader_ne hr hk, hcid, hpc⟩
  cases hcase with
  | found b _ hb =>
    have hk : k ≠ i := by
      rintro rfl
      cases hr.symm.trans hr'
      rw [hcid, h.missing] at hb
      cases hb
    exact ⟨by rw [unlock_backingBs]; exact h.missing, hhidden,
      by rw [unlock_readers]; exact hmove _ (.inr hk)⟩
  | miss _ _ =>
    exact ⟨h.missing, hhidden, hmove .locking (.inl fun x hx => by cases hx)⟩
  | batched b _ hfree hb =>
    -- Whoever looks into the batches has the lock, so it does not find the block.
    have hk : k ≠ i := by
      rintro rfl
      cases hr.symm.trans hr'
      rcases h.hidden with hnot | ⟨j, hj⟩
      · refine hnot (hcid ▸ .inr ?_)
        rcases hb with hb | hb
        · exact .inl (by rw [hb]; rfl)
        · exact .inr (by rw [hb]; rfl)
      · rw [hj.1] at hfree; cases hfree
    exact ⟨h.missing, hhidden, hmove _ (.inr hk)⟩
  | again _ _ _ _ =>
    exact ⟨h.missing, hhidden, hmove .readBacking (.inl fun x hx => by cases hx)⟩

theorem searching_run {schedule : List Nat}
    (h : Searching s i c) (hrun : s.run (schedule.map .readStep) = some s') :
    Searching s' i c := by
  induction schedule generalizing s with
  | nil => cases hrun; exact h
  | cons k schedule ih =>
    obtain ⟨t, ht, hrun⟩ := run_cons hrun
    exact ih (searching_readStep h ht) hrun

/-- A read that starts in such a state does not return. -/
theorem not_returned (hmissing : s.backingBs.get? c = none)
    (hhidden : ¬ s.Holds c ∨ ∃ k, s.Deadlocked k) {schedule : List Nat}
    (hrun : s.run (.read op c :: schedule.map .readStep) = some s') :
    ∃ r, s'.readers[s.readers.length]? = some r ∧ ∀ x, r.pc ≠ .returned x := by
  obtain ⟨t, ht, hrun⟩ := run_cons hrun
  cases ht
  have hstart : Searching { s with readers := s.readers ++ [⟨op, c, .readBacking⟩] }
      s.readers.length c :=
    ⟨hmissing, hhidden.imp id fun ⟨k, hlock, r, hr, hpc⟩ =>
        ⟨k, hlock, r, getElem?_append_of_some hr, hpc⟩,
      _, getElem?_concat_length, rfl, fun x hx => by cases hx⟩
  obtain ⟨r, hr, -, hpc⟩ := (searching_run hstart hrun).reader
  exact ⟨r, hr, hpc⟩

theorem not_reads (h : ¬ s.Holds c) (answer : Answer content) : ¬ s.Reads op c answer := by
  rintro ⟨schedule, s', hrun, -, r, x, hr, hx, -⟩
  have hmissing : s.backingBs.get? c = none :=
    Option.not_isSome_iff_eq_none.mp fun hc => h (.inl hc)
  obtain ⟨r', hr', hpc⟩ := not_returned hmissing (.inl h) hrun
  cases hr.symm.trans hr'
  exact hpc x hx

end ReadLemmas

open ReadLemmas

/-- For a CID that was never put and is not in the backing store no read returns, in any
state. With the lock free a read returns what the store holds, and leaves the lock free,
exactly when the store holds something. -/
theorem reads_return_iff (s : Autobatch content) (op : ReadOp) (c : Cid) :
    (∀ answer, s.Reads op c answer → s.Holds c) ∧
      (s.stateLock = none → (s.Reads op c (op.answer (s.lookup c)) ↔ s.Holds c)) := by
  have hholds : ∀ answer, s.Reads op c answer → s.Holds c :=
    fun answer hreads => of_not_not fun hholds => not_reads hholds answer hreads
  exact ⟨hholds, fun hfree => ⟨hholds _, reads_of_holds hfree⟩⟩

/-- A buffered block is found, and its read returns. -/
theorem reads_return_buffered :
    ((new 10 ∅ : Autobatch byteContent).put (byteBlock 1)).Reads .has 1 (.has true) :=
  ((reads_return_iff ((new 10 ∅ : Autobatch byteContent).put (byteBlock 1)) .has 1).2 rfl).mpr
    (by decide)

/-- In an empty store `Get` of any CID never returns. -/
theorem get_of_absent_never_returns :
    ¬ (new 10 ∅ : Autobatch byteContent).Reads .get 7 (ReadOp.answer .get (.error .notFound)) :=
  not_reads (by decide) _

/-! ## The deadlock -/

namespace ReadLemmas

theorem flushStep_readers {j : Nat} {out : PutMany} (hs : s.flushStep j out = some s') :
    s'.readers = s.readers ∧ s'.stateLock = s.stateLock ∧ s'.addedCids = s.addedCids ∧
      ∀ c, (s.backingBs.get? c).isSome → (s'.backingBs.get? c).isSome := by
  obtain ⟨f, -, hcase⟩ := flushStep_cases hs
  cases hcase with
  | again hpc hfree herr | take hpc hfree | clear hpc hfree => exact ⟨rfl, rfl, rfl, fun _ h => h⟩
  | enter _ _ _ =>
    unfold afterRetry
    split <;> exact ⟨rfl, rfl, rfl, fun _ h => h⟩
  | retry _ =>
    unfold afterRetry
    split <;> exact ⟨rfl, rfl, rfl, fun _ => AutobatchLemmas.isSome_putMany⟩
  | putFailed hpc herr | putDone hpc herr =>
    exact ⟨rfl, rfl, rfl, fun _ => AutobatchLemmas.isSome_putMany⟩

end ReadLemmas

/-- Block 1 is put, and then a block that is nowhere is read. From then on no
`Get` of block 1 returns, however the reads go on. -/
theorem put_block_unreachable :
    ∃ s, (new 10 ∅ : Autobatch byteContent).run
        [.put (byteBlock 1), .read .get 7, .readStep 0, .readStep 0, .readStep 0] = some s ∧
      1 ∈ s.addedCids ∧
      ∀ (schedule : List Nat) s', s.run (.read .get 1 :: schedule.map .readStep) = some s' →
        ∃ r, s'.readers[1]? = some r ∧ ∀ x, r.pc ≠ .returned x :=
  ⟨_, rfl, by decide, fun _ _ hrun => not_returned rfl (.inr ⟨0, rfl, _, rfl, rfl⟩) hrun⟩

/-! ## Runs without it -/

/-- The backing store can be read, and a read that looks into the batches looks
for a block that is somewhere. -/
def available (s : Autobatch content) : Step content → Bool
  | .readStep i =>
      s.readers[i]?.all fun r =>
        match r.pc with
        | .locking => decide (s.Holds r.cid)
        | _ => true
  | .readFails _ => false
  | _ => true

variable (s i r) in
/-- The read number `i` can go on, with the steps of reads only, until it has
returned a block. -/
def Finishes : Prop :=
  ∃ (schedule : List Nat) (s' : Autobatch content) (b : Block content),
    s.run (schedule.map .readStep) = some s' ∧ s'.stateLock = none ∧ b.cid = r.cid ∧
    s'.readers[i]? = some { r with pc := .returned (.ok b) }

/-- What callers rely on, in one state. -/
structure Lossless (s : Autobatch content) : Prop where
  /-- A block that was put is returned by a `Get` that starts now. -/
  get : ∀ b : Block content, b.cid ∈ s.addedCids → s.Reads .get b.cid (.block b)
  /-- A read under way of a block that was put can go on until it has it. -/
  pending : ∀ i r, s.readers[i]? = some r → r.cid ∈ s.addedCids → (∀ x, r.pc ≠ .returned x) →
    s.Finishes i r
  /-- A read that has returned has found the block. -/
  returned : ∀ r ∈ s.readers, ∀ x, r.pc = .returned x → ∃ b, b.cid = r.cid ∧ x = .ok b
  /-- A `Flush` that returned `nil` has brought all blocks put before it to the
  backing store. -/
  flushed : ∀ f ∈ s.flushers, f.retryOnly = false → f.pc = .returned false →
    ∀ c ∈ f.before, (s.backingBs.get? c).isSome

variable (s c) in
/-- What the store has under the CID is the block of this CID. -/
def Filed : Prop :=
  ∀ b, s.backingBs.get? c = some b ∨ s.flushingBatch.blockMap.get? c = some b ∨
    s.bufferedBatch.blockMap.get? c = some b → b.cid = c

structure ReadInv (s : Autobatch content) : Prop where
  returned : ∀ r ∈ s.readers, ∀ x, r.pc = .returned x → ∃ b, b.cid = r.cid ∧ x = .ok b
  /-- Whoever holds the lock is about to find the block. -/
  holder : ∀ i, s.stateLock = some i →
    ∃ r, s.readers[i]? = some r ∧ r.pc = .readBacking ∧ (s.backingBs.get? r.cid).isSome

namespace ReadLemmas

theorem readInv_mono (h : ReadInv s) (hreaders : s'.readers = s.readers)
    (hlock : s'.stateLock = s.stateLock)
    (hback : ∀ c, (s.backingBs.get? c).isSome → (s'.backingBs.get? c).isSome) : ReadInv s' where
  returned r hr := h.returned r (hreaders ▸ hr)
  holder i hi := by
    obtain ⟨r, hr, hpc, hb⟩ := h.holder i (hlock ▸ hi)
    exact ⟨r, hreaders ▸ hr, hpc, hback _ hb⟩

/-- A read moves to `pc`; what it has returned is its block, and a lock it keeps
it will give back. -/
theorem readInv_set {pc : ReaderPc content} (h : ReadInv s) (hr : s.readers[i]? = some r)
    (hreaders : s'.readers = s.readers.set i { r with pc := pc })
    (hback : s'.backingBs = s.backingBs)
    (hpc : ∀ x, pc = .returned x → ∃ b, b.cid = r.cid ∧ x = .ok b)
    (hlock : ∀ k, s'.stateLock = some k → (k ≠ i ∧ s.stateLock = some k) ∨
      (k = i ∧ pc = .readBacking ∧ (s.backingBs.get? r.cid).isSome)) : ReadInv s' := by
  constructor
  · rw [hreaders]
    exact forall_mem_set h.returned hpc
  · intro k hk
    rw [hback, hreaders]
    rcases hlock k hk with ⟨hne, hk⟩ | ⟨rfl, hpc, hb⟩
    · obtain ⟨r', hr', hpc', hb⟩ := h.holder k hk
      exact ⟨r', by rw [List.getElem?_set_ne hne.symm, hr'], hpc', hb⟩
    · exact ⟨_, List.getElem?_set_self (List.getElem?_eq_some_iff.mp hr).1, hpc, hb⟩

theorem readInv_readStep (h : ReadInv s) (hf : FlushInv s)
    (hav : s.available (.readStep i) = true) (hs : s.readStep i = some s') : ReadInv s' := by
  obtain ⟨r, hr, hcase⟩ := readStep_cases hs
  cases hcase with
  | found b _ hb =>
    refine readInv_set h hr (unlock_readers _ _) (unlock_backingBs _ _) (fun x hx => ?_)
      fun k hk => ?_
    · cases hx
      exact ⟨b, hf.backed _ b hb, rfl⟩
    · obtain ⟨hne, hk⟩ := unlock_eq_some_iff.mp hk
      exact .inl ⟨hne.symm, hk⟩
  | miss _ hb =>
    refine readInv_set h hr rfl rfl (fun x hx => by cases hx) fun k hk => .inl ⟨?_, hk⟩
    rintro rfl
    obtain ⟨r', hr', -, hsome⟩ := h.holder k hk
    cases hr.symm.trans hr'
    rw [hb] at hsome
    cases hsome
  | batched b _ hfree hb =>
    refine readInv_set h hr rfl rfl (fun x hx => ?_) fun k hk => ?_
    · cases hx
      rcases hb with hb | hb
      · exact ⟨b, (hf.flushing _ b hb).1, rfl⟩
      · exact ⟨b, (hf.buffered _ b hb).1, rfl⟩
    · rw [show s.stateLock = some k from hk] at hfree
      cases hfree
  | again hpc _ hflushing hbuf =>
    -- A block that is somewhere, but in neither batch, has been flushed since
    -- the first look at the backing store.
    have hback : (s.backingBs.get? r.cid).isSome := by
      have hholds : s.Holds r.cid := by simpa [available, hr, hpc] using hav
      rcases hholds with hc | hc | hc
      · exact hc
      · rw [hflushing] at hc; cases hc
      · rw [hbuf] at hc; cases hc
    refine readInv_set h hr rfl rfl (fun x hx => by cases hx) fun k hk => ?_
    cases hk
    exact .inr ⟨rfl, rfl, hback⟩

theorem readInv_step {e : Step content} (h : ReadInv s)
    (hf : FlushInv s) (hav : s.available e = true) (hs : s.step e = some s') : ReadInv s' := by
  cases AutobatchLemmas.step_cases hs with
  | put b _ =>
    unfold put
    split
    · exact h
    · exact readInv_mono h rfl rfl fun _ hc => hc
  | read op c =>
    constructor
    · exact forall_mem_snoc h.returned fun x hx => by cases hx
    · intro i hi
      obtain ⟨r, hr, hrest⟩ := h.holder i hi
      exact ⟨r, getElem?_append_of_some hr, hrest⟩
  | readStep i s' hread => exact readInv_readStep h hf hav hread
  | readFails i s' _ => cases hav
  | start e retryOnly ch worker => exact readInv_mono h rfl rfl fun _ hc => hc
  | flushStep j out s' hflush =>
    obtain ⟨hreaders, hlock, -, hback⟩ := flushStep_readers hflush
    exact readInv_mono h hreaders hlock hback

/-! ### Reads can finish -/

theorem filed_of_flushInv (hf : FlushInv s) (c : Cid) : s.Filed c := by
  rintro b (hb | hb | hb)
  · exact hf.backed _ b hb
  · exact (hf.flushing _ b hb).1
  · exact (hf.buffered _ b hb).1

theorem cid_of_batched (hfiled : s.Filed c) (h : Batched s c b) : b.cid = c :=
  hfiled b (.inr (h.imp id And.right))

theorem lookup_eq_ok (hfiled : s.Filed c)
    (hholds : s.Holds c) : ∃ b, b.cid = c ∧ s.lookup c = .ok b := by
  cases hb : s.backingBs.get? c with
  | some b => exact ⟨b, hfiled b (.inl hb), by rw [lookup, hb]⟩
  | none =>
    obtain ⟨b, hbatched⟩ := exists_batched hholds hb
    exact ⟨b, cid_of_batched hfiled hbatched, lookup_batched hb hbatched⟩

theorem finishes_locking (hr : s.readers[i]? = some ⟨op, c, .locking⟩) (hfree : s.stateLock = none)
    (hfiled : s.Filed c) (hholds : s.Holds c) : s.Finishes i ⟨op, c, .locking⟩ := by
  rcases batched_cases s c with ⟨b, hbatched⟩ | ⟨hfl, hbuf⟩
  · refine ⟨[i], s.setReader i ⟨op, c, .returned (.ok b)⟩, b, ?_, hfree,
      cid_of_batched hfiled hbatched, getElem?_setReader hr⟩
    simp [run, step, readStep_batched hr hfree hbatched]
  · -- Flushed since the first look: the second call finds it.
    cases hb : s.backingBs.get? c with
    | some b =>
      let t := { s.setReader i ⟨op, c, .readBacking⟩ with stateLock := some i }
      have ht : t.readers[i]? = some ⟨op, c, .readBacking⟩ := getElem?_setReader hr
      have hbt : t.backingBs.get? c = some b := hb
      refine ⟨[i, i], (t.setReader i ⟨op, c, .returned (.ok b)⟩).unlock i, b, ?_, ?_,
        hfiled b (.inl hb), ?_⟩
      · have hfirst : s.readStep i = some t := by simp [readStep, hr, hfree, hfl, hbuf, t]
        have hsecond : t.readStep i =
            some ((t.setReader i ⟨op, c, .returned (.ok b)⟩).unlock i) := by
          simp [readStep, ht, hbt]
        simp [run, step, hfirst, hsecond]
      · simp [unlock, setReader, t]
      · rw [unlock_readers]; exact getElem?_setReader ht
    | none => simp [Holds, hb, hfl, hbuf] at hholds

/-- When another read has the lock, it returns first. -/
theorem finishes_of_readInv (h : ReadInv s)
    (hr : s.readers[i]? = some r) (hpc : ∀ x, r.pc ≠ .returned x) (hfiled : s.Filed r.cid)
    (hholds : s.Holds r.cid) : s.Finishes i r := by
  have hfinishes : ∀ t : Autobatch content, t.readers[i]? = some r → t.stateLock = none →
      t.Filed r.cid → t.Holds r.cid → t.Finishes i r := by
    obtain ⟨op, c, pc⟩ := r
    intro t ht hfree hfiled hholds
    cases pc with
    | readBacking =>
      obtain ⟨schedule, s', hrun, hlock, hr'⟩ := returns_of_holds ht hfree hholds
      obtain ⟨b, hcid, hb⟩ := lookup_eq_ok hfiled hholds
      exact ⟨schedule, s', b, hrun, hlock, hcid, by rw [hr', hb]⟩
    | locking => exact finishes_locking ht hfree hfiled hholds
    | returned x => exact absurd rfl (hpc x)
  cases hlock : s.stateLock with
  | none => exact hfinishes s hr hlock hfiled hholds
  | some k =>
    obtain ⟨r', hr', hpc', hsome⟩ := h.holder k hlock
    obtain ⟨b, hb⟩ := Option.isSome_iff_exists.mp hsome
    let t := { s.setReader k { r' with pc := .returned (.ok b) } with stateLock := none }
    have hstep : s.readStep k = some t := by
      simp [readStep, hr', hpc', hb, unlock, setReader, hlock, t]
    by_cases hk : k = i
    · subst hk
      cases hr.symm.trans hr'
      exact ⟨[k], t, b, by simp [run, step, hstep], rfl, hfiled b (.inl hb),
        getElem?_setReader hr⟩
    · obtain ⟨schedule, s', b', hrun, hrest⟩ :=
        hfinishes t (getElem?_setReader_ne hr hk) rfl hfiled hholds
      refine ⟨k :: schedule, s', b', ?_, hrest⟩
      rw [← hrun]
      simp [run, step, hstep]

end ReadLemmas

/-- In every run, however often `PutMany` fails and whatever the reads do: a `Flush` that
returned `nil` has brought all blocks put before it to the backing store. -/
theorem flushed_run (bufferCapacity : Nat) {backing : Table Cid (Block content)}
    (hbacking : ∀ c b, backing.get? c = some b → b.cid = c) {steps : List (Step content)}
    {states : List (Autobatch content)}
    (hrun : trace step (new bufferCapacity backing) steps = some states) :
    ∀ s ∈ states, ∀ f ∈ s.flushers, f.retryOnly = false → f.pc = .returned false →
      ∀ c ∈ f.before, (s.backingBs.get? c).isSome := by
  have hinv : ∀ s ∈ states, FlushInv s :=
    trace_forall (fun _ _ _ h hs => AutobatchLemmas.flushInv_step h hs)
      (AutobatchLemmas.flushInv_new bufferCapacity hbacking) hrun
  intro s hs f hf hretry hpc
  have hprog := (hinv s hs).progress f hf
  unfold Progress at hprog
  rw [hpc] at hprog
  exact hprog rfl hretry

/-- In every run in which no read looks for a block that is nowhere, whatever
the flushes do and however often `PutMany` fails, nothing that was put is lost. -/
theorem lossless_run (bufferCapacity : Nat) (backing : Table Cid (Block content))
    (hbacking : ∀ c b, backing.get? c = some b → b.cid = c) (steps : List (Step content))
    (states : List (Autobatch content))
    (hrun : trace step (new bufferCapacity backing) steps = some states)
    (havailable : Guarded step (fun s e => s.available e = true) (new bufferCapacity backing)
      steps) :
    ∀ s ∈ states, Lossless s := by
  have hinv : ∀ s ∈ states, FlushInv s ∧ ReadInv s :=
    trace_forall_guarded
      (fun _ _ _ h hav hs =>
        ⟨AutobatchLemmas.flushInv_step h.1 hs, readInv_step h.2 h.1 hav hs⟩)
      ⟨AutobatchLemmas.flushInv_new bufferCapacity hbacking,
        fun _ hr => (nomatch hr), fun _ hi => (nomatch hi)⟩
      hrun havailable
  intro s hs
  obtain ⟨hf, hr⟩ := hinv s hs
  refine ⟨fun b hb => ?_, fun i r hir hadded hpc => ?_, hr.returned,
    flushed_run bufferCapacity hbacking hrun s hs⟩
  · -- The new read is under way in the state after its call.
    let fresh : Reader content := ⟨.get, b.cid, .readBacking⟩
    let t : Autobatch content := { s with readers := s.readers ++ [fresh] }
    have ht : ReadInv t := readInv_step (e := .read .get b.cid) hr hf rfl rfl
    have hfresh : t.readers[s.readers.length]? = some fresh := getElem?_concat_length
    obtain ⟨schedule, s', b', hrun, hlock, hcid, hret⟩ :=
      finishes_of_readInv ht hfresh (fun x hx => by cases hx) (filed_of_flushInv hf b.cid)
        (hf.added _ hb)
    exact ⟨schedule, s', hrun, hlock, _, _, hret, rfl, congrArg Answer.block (Block.eq_of_cid hcid)⟩
  · exact finishes_of_readInv hr hir hpc (filed_of_flushInv hf _) (hf.added _ hadded)

/-- A block is read while it is flushed: the first `PutMany` fails, the read
looks into the batches after the second one has brought it to the backing
store. -/
theorem lossless_run_flushed :
    ∃ states, trace step (new 10 ∅ : Autobatch byteContent)
        [.put (byteBlock 1), .read .get 1, .readStep 0, .flush, .flushStep 0 .ok,
          .flushStep 0 .ok, .flushStep 0 (.failed 0), .flush, .flushStep 1 .ok, .flushStep 1 .ok,
          .flushStep 1 .ok, .flushStep 1 .ok, .flushStep 1 .ok, .readStep 0, .readStep 0] =
        some states ∧ ∀ s ∈ states, Lossless s :=
  exists_trace_of (by decide) fun states hrun =>
    lossless_run 10 ∅ (fun c b hb => by cases hb) _ states hrun (by decide)

end Autobatch

end OpenDsn.Blockstore
