import Mathlib.Data.Finset.SDiff
import Mathlib.Data.Finset.Lattice.Lemmas

/-!
# Crashes during a compaction

`blockstore/splitstore/splitstore_compact.go`, `checkpoint.go`: `doCompact` writes
the cold objects to the coldset file, copies them to the coldstore, persists the
mark set, and then purges them from the hotstore batch by batch, with a
checkpoint after each batch. At a restart `completeCompaction` goes on after the
checkpoint.

Objects are known by their CIDs. Both functions are given as the operations on
stores and files that they perform; a crash cuts them after any of these.

* `along_purge`: what holds after each operation of a purge;
* `recovers`: wherever `doCompact` stops, and wherever the restarts stop, no
  object is lost, and a purge that has begun ends as if it had not been
  interrupted.
-/

namespace OpenDsn.Splitstore

open List Option

variable {K : Type} [DecidableEq K]

/-- The stores, and the files `coldset`, `live` and `checkpoint`. -/
structure Disk (K : Type) where
  hot : Finset K
  cold : Finset K
  coldset : Option (List K)
  marks : Option (Finset K)
  /-- A new checkpoint is empty. -/
  checkpoint : Option (Option K)

inductive Op (K : Type)
  | writeColdset (l : List K)
  | putCold (batch : List K)
  /-- `BeginCriticalSection` -/
  | persistMarks (live : Finset K)
  | newCheckpoint
  | deleteHot (dead : List K)
  | setCheckpoint (c : Option K)
  | dropMarks
  | removeCheckpoint
  | removeColdset
deriving DecidableEq

def Op.apply (d : Disk K) : Op K → Disk K
  | .writeColdset l => { d with coldset := some l }
  | .putCold batch => { d with cold := d.cold ∪ batch.toFinset }
  | .persistMarks live => { d with marks := some live }
  | .newCheckpoint => { d with checkpoint := some none }
  | .deleteHot dead => { d with hot := d.hot \ dead.toFinset }
  | .setCheckpoint c => { d with checkpoint := some c }
  | .dropMarks => { d with marks := none }
  | .removeCheckpoint => { d with checkpoint := none }
  | .removeColdset => { d with coldset := none }

def run (d : Disk K) (ops : List (Op K)) : Disk K := ops.foldl Op.apply d

def batchSize : Nat := 16384

/-- The loops over the coldset: a batch is handed on when it is full, and what is
left at the end. -/
def batches : List K → List K → List (List K)
  | batch, [] => if batch = [] then [] else [batch]
  | batch, c :: rest =>
      if (batch ++ [c]).length = batchSize then (batch ++ [c]) :: batches [] rest
      else batches (batch ++ [c]) rest

def purgeBatch (live : Finset K) (batch : List K) : List (Op K) :=
  let dead := batch.filter (· ∉ live)
  (if dead = [] then [] else [.deleteHot dead]) ++ [.setCheckpoint batch.getLast?]

def purge (live : Finset K) (l : List K) : List (Op K) := (batches [] l).flatMap (purgeBatch live)

inductive MarkSetType
  | map
  | badger

/-- The end of both functions. `EndCriticalSection` removes the file of a map;
a badger mark set is removed when it is closed, at the very end. -/
def finish : MarkSetType → List (Op K)
  | .map => [.dropMarks, .removeCheckpoint, .removeColdset]
  | .badger => [.removeCheckpoint, .removeColdset, .dropMarks]

/-- What `doCompact` finds: the keys of the hotstore in their order, the marks
when they are collected and in the critical section, and how the buffered writes
of the coldset reach the file. -/
structure Collected (K : Type) where
  keys : List K
  marked : Finset K
  live : Finset K
  flushed : List (List K)

def Collected.coldset (c : Collected K) : List K := c.keys.filter (· ∉ c.marked)

/-- `doCompact` before the checkpoint: the cold objects are listed and copied, and
the critical section begins. -/
def prepare (d : Disk K) (c : Collected K) : List (Op K) :=
  c.flushed.map .writeColdset ++ .writeColdset c.coldset ::
    (batches [] (c.coldset.filter (· ∈ d.hot))).map .putCold ++ [.persistMarks c.live]

/-- `doCompact`; it aborts when there is a checkpoint. -/
def doCompact (t : MarkSetType) (d : Disk K) (c : Collected K) : Option (List (Op K)) :=
  if d.checkpoint.isSome then none
  else some (prepare d c ++ .newCheckpoint :: (purge c.live c.coldset ++ finish t))

/-- What is left to purge after the checkpoint. -/
def rest : Option K → List K → List K
  | none, l => l
  | some k, l => (l.dropWhile (· ≠ k)).tail

/-- `completeCompaction`, if there is a checkpoint; without the coldset or the
mark set it fails. -/
def completeCompaction (t : MarkSetType) (d : Disk K) : List (Op K) :=
  match d.checkpoint, d.coldset, d.marks with
  | some start, some l, some live => purge live (rest start l) ++ finish t
  | _, _, _ => []

/-- Restarts, of which all but the last are interrupted as well. -/
def restart (t : MarkSetType) (d : Disk K) : List Nat → Disk K
  | [] => run d (completeCompaction t d)
  | n :: crashes => restart t (run d ((completeCompaction t d).take n)) crashes

/-! ## After every operation -/

/-- `P` holds at the start and after each operation. -/
def Along (P : Disk K → Prop) : Disk K → List (Op K) → Prop
  | d, [] => P d
  | d, op :: ops => P d ∧ Along P (op.apply d) ops

section Along

variable {P Q : Disk K → Prop} {d : Disk K} {ops ops' : List (Op K)}

theorem run_append : run d (ops ++ ops') = run (run d ops) ops' := foldl_append

theorem Along.imp (hPQ : ∀ d, P d → Q d) (h : Along P d ops) : Along Q d ops := by
  induction ops generalizing d with
  | nil => exact hPQ d h
  | cons op ops ih => exact ⟨hPQ d h.1, ih h.2⟩

theorem Along.take (h : Along P d ops) (n : Nat) : P (run d (ops.take n)) := by
  induction ops generalizing d n with
  | nil => rw [take_nil]; exact h
  | cons op ops ih =>
    cases n with
    | zero => exact h.1
    | succ n => exact ih h.2 n

theorem Along.all (h : Along P d ops) : P (run d ops) := by
  simpa using Along.take h ops.length

theorem Along.append (h : Along P d ops) (h' : Along P (run d ops) ops') :
    Along P d (ops ++ ops') := by
  induction ops generalizing d with
  | nil => exact h'
  | cons op ops ih => exact ⟨h.1, ih h.2 h'⟩

theorem along_of_kept (hP : P d) (h : ∀ op ∈ ops, ∀ d, P d → P (op.apply d)) : Along P d ops := by
  induction ops generalizing d with
  | nil => exact hP
  | cons op ops ih =>
    exact ⟨hP, ih (h op mem_cons_self d hP) fun op' hop' =>
      h op' (mem_cons_of_mem _ hop')⟩

end Along

namespace CompactionLemmas

omit [DecidableEq K] in
theorem flatten_batches (batch l : List K) : (batches batch l).flatten = batch ++ l := by
  induction l generalizing batch with
  | nil => by_cases h : batch = [] <;> simp [batches, h]
  | cons c l ih =>
    unfold batches
    split <;> simp [ih]

omit [DecidableEq K] in
theorem ne_nil_of_mem_batches {batch l b : List K} (h : b ∈ batches batch l) : b ≠ [] := by
  induction l generalizing batch with
  | nil =>
    by_cases hb : batch = [] <;> simp [batches, hb] at h
    rwa [h]
  | cons c l ih =>
    unfold batches at h
    split at h
    · rcases mem_cons.mp h with rfl | h
      · simp
      · exact ih h
    · exact ih h

theorem mem_rest {k x : K} {post : List K} (pre : List K) (h : x ∈ post) :
    x ∈ rest (some k) (pre ++ k :: post) := by
  induction pre with
  | nil => simpa [rest] using h
  | cons y pre ih =>
    by_cases hy : y = k
    · simp [rest, hy, h]
    · simpa [rest, hy] using ih

end CompactionLemmas

/-! ## The purge -/

section Purge

variable (d₀ : Disk K) (l : List K) (live : Finset K)

/-- What a completed purge leaves in the hotstore. -/
def purged : Finset K := d₀.hot \ (l.filter (· ∉ live)).toFinset

/-- The purge has begun, and can be resumed: all cold objects are in the
coldstore, and what lies before the checkpoint has been purged. -/
structure Resumable (d : Disk K) : Prop where
  hot : d.hot ⊆ d₀.hot
  kept : purged d₀ l live ⊆ d.hot
  cold : d₀.cold ⊆ d.cold
  copied : ∀ k ∈ d₀.hot, k ∈ l → k ∈ d.cold
  coldset : ∀ l', d.coldset = some l' → l' = l
  marks : ∀ live', d.marks = some live' → live' = live
  progress : d.hot = purged d₀ l live ∨ d.coldset.isSome ∧ d.marks.isSome ∧
    ∃ start, d.checkpoint = some start ∧ ∀ k ∈ l, k ∉ rest start l → k ∉ live → k ∉ d.hot

variable {d₀ l live} {d : Disk K}

namespace CompactionLemmas

theorem eq_purged (h : Resumable d₀ l live d) (hgone : ∀ k ∈ l, k ∉ live → k ∉ d.hot) :
    d.hot = purged d₀ l live := by
  refine (Finset.Subset.antisymm h.kept fun k hk => ?_).symm
  simp only [purged, Finset.mem_sdiff, List.mem_toFinset, mem_filter, decide_eq_true_eq]
  exact ⟨h.hot hk, fun ⟨hl, hlive⟩ => hgone k hl hlive hk⟩

theorem not_mem_purged {k : K} (hl : k ∈ l) (hlive : k ∉ live) : k ∉ purged d₀ l live := by
  simp [purged, hl, hlive]

section

variable (h : Resumable d₀ l live d)
include h

theorem not_lost : d₀.hot ∪ d₀.cold ⊆ d.hot ∪ d.cold := by
  intro k hk
  rcases Finset.mem_union.mp hk with hk | hk
  · by_cases hkept : k ∈ purged d₀ l live
    · exact Finset.mem_union_left _ (h.kept hkept)
    · have hkl : k ∈ l := by
        by_contra hkl
        exact hkept (by simp [purged, hk, hkl])
      exact Finset.mem_union_right _ (h.copied k hk hkl)
  · exact Finset.mem_union_right _ (h.cold hk)

theorem resumable_delete {dead : List K} (hdead : ∀ k ∈ dead, k ∈ l ∧ k ∉ live) :
    Resumable d₀ l live ((Op.deleteHot dead).apply d) := by
  have hkept : purged d₀ l live ⊆ d.hot \ dead.toFinset := fun k hk =>
    Finset.mem_sdiff.mpr ⟨h.kept hk, fun hd =>
      have hkd := hdead k (mem_toFinset.mp hd)
      not_mem_purged hkd.1 hkd.2 hk⟩
  refine { h with hot := Finset.sdiff_subset.trans h.hot, kept := hkept, progress := ?_ }
  rcases h.progress with heq | ⟨hc, hm, start, hs, hgone⟩
  · exact .inl (Finset.Subset.antisymm (Finset.sdiff_subset.trans heq.subset) hkept)
  · exact .inr ⟨hc, hm, start, hs, fun k hk hr hlive hmem =>
      hgone k hk hr hlive (Finset.sdiff_subset hmem)⟩

theorem resumable_finish (heq : d.hot = purged d₀ l live) (t : MarkSetType) :
    Along (fun d => Resumable d₀ l live d ∧ d.hot = purged d₀ l live) d (finish t) := by
  refine along_of_kept ⟨h, heq⟩ fun op hop d ⟨h, heq⟩ => ?_
  have hop : op = .dropMarks ∨ op = .removeCheckpoint ∨ op = .removeColdset := by
    cases t <;> simp [finish] at hop <;> tauto
  rcases hop with rfl | rfl | rfl
  · exact ⟨{ h with marks := fun _ hm => (by cases hm), progress := .inl heq }, heq⟩
  · exact ⟨{ h with progress := .inl heq }, heq⟩
  · exact ⟨{ h with coldset := fun _ hc => (by cases hc), progress := .inl heq }, heq⟩

end

section

variable (h : Resumable d₀ l live d)
include h

/-- The batches `bs` are left, and all that is in none of them has been purged. -/
theorem along_batches {bs : List (List K)} (hbs : ∀ b ∈ bs, b ≠ []) (pre : List K)
    (hl : l = pre ++ bs.flatten) (hc : d.coldset.isSome)
    (hm : d.marks.isSome) (hgone : ∀ k ∈ l, k ∉ bs.flatten → k ∉ live → k ∉ d.hot) :
    Along (Resumable d₀ l live) d (bs.flatMap (purgeBatch live)) ∧
      (run d (bs.flatMap (purgeBatch live))).hot = purged d₀ l live := by
  induction bs generalizing d pre with
  | nil => exact ⟨h, eq_purged h fun k hk => hgone k hk not_mem_nil⟩
  | cons b bs ih =>
    obtain ⟨init, last, rfl⟩ : ∃ init last, b = init ++ [last] :=
      ⟨_, _, (dropLast_append_getLast (hbs b mem_cons_self)).symm⟩
    set b := init ++ [last] with hb
    let dead := b.filter (· ∉ live)
    have hdead : ∀ k ∈ dead, k ∈ l ∧ k ∉ live := fun k hk => by
      have hk := mem_filter.mp hk
      exact ⟨hl ▸ by simp [hk.1], by simpa using hk.2⟩
    let d₁ := (Op.deleteHot dead).apply d
    have h₁ : Resumable d₀ l live d₁ := resumable_delete h hdead
    have hgone₁ : ∀ k ∈ l, k ∉ bs.flatten → k ∉ live → k ∉ d₁.hot := by
      intro k hk hbs hlive hmem
      obtain ⟨hmem, hnot⟩ := Finset.mem_sdiff.mp hmem
      refine hgone k hk (fun hin => ?_) hlive hmem
      refine (mem_append.mp hin).elim (fun hkb => hnot ?_) hbs
      simp [dead, hkb, hlive]
    have hlast : b.getLast? = some last := by simp [hb]
    have hrest : ∀ k ∈ bs.flatten, k ∈ rest (some last) l := fun k hk => by
      have := mem_rest (k := last) (pre ++ init) hk
      simpa [hl, hb] using this
    have h₂ : Resumable d₀ l live ((Op.setCheckpoint (some last)).apply d₁) :=
      { h₁ with progress := .inr ⟨hc, hm, some last, rfl, fun k hk hr =>
          hgone₁ k hk fun hin => hr (hrest k hin)⟩ }
    have hnext := ih h₂ (forall_mem_cons.mp hbs).2 (pre ++ b) (by simp [hl]) hc hm hgone₁
    have hbatch : Along (Resumable d₀ l live) d (purgeBatch live b) ∧
        run d (purgeBatch live b) = (Op.setCheckpoint (some last)).apply d₁ := by
      by_cases hnil : dead = []
      · have hsame : d₁ = d := by simp [d₁, Op.apply, hnil]
        simp only [purgeBatch, dead] at hnil ⊢
        simp only [hnil, hlast, if_true, nil_append]
        exact ⟨⟨h, hsame ▸ h₂⟩, by rw [hsame]; rfl⟩
      · simp only [purgeBatch, dead] at hnil ⊢
        simp only [hlast, if_neg hnil]
        exact ⟨⟨h, h₁, h₂⟩, rfl⟩
    rw [flatMap_cons, run_append, hbatch.2]
    exact ⟨hbatch.1.append (hbatch.2 ▸ hnext.1), hnext.2⟩

theorem along_purge {todo : List K} (pre : List K) (hl : l = pre ++ todo)
    (hc : d.coldset.isSome) (hm : d.marks.isSome)
    (hgone : ∀ k ∈ l, k ∉ todo → k ∉ live → k ∉ d.hot) (t : MarkSetType) :
    Along (Resumable d₀ l live) d (purge live todo ++ finish t) ∧
      (run d (purge live todo ++ finish t)).hot = purged d₀ l live := by
  have hflat : (batches [] todo).flatten = todo := flatten_batches [] todo
  obtain ⟨halong, hdone⟩ := along_batches h (fun _ => ne_nil_of_mem_batches)
    pre (by rw [hflat, hl]) hc hm (by rwa [hflat])
  have hfinish := resumable_finish halong.all hdone t
  rw [run_append]
  exact ⟨halong.append (hfinish.imp fun _ h => h.1), hfinish.all.2⟩

theorem resumable_complete (t : MarkSetType) :
    Along (Resumable d₀ l live) d (completeCompaction t d) ∧
      (run d (completeCompaction t d)).hot = purged d₀ l live := by
  unfold completeCompaction
  split
  · next start l' live' hs hl hm =>
    obtain rfl := h.coldset l' hl
    obtain rfl := h.marks live' hm
    obtain ⟨pre, hpre⟩ : ∃ pre, l' = pre ++ rest start l' := by
      cases start with
      | none => exact ⟨[], rfl⟩
      | some k =>
        obtain ⟨pre, hpre⟩ := (tail_suffix _).trans (dropWhile_suffix (l := l') (· ≠ k))
        exact ⟨pre, hpre.symm⟩
    refine along_purge h pre hpre (by simp [hl]) (by simp [hm]) (fun k hk hr hlive => ?_) t
    rcases h.progress with heq | ⟨-, -, start', hs', hgone⟩
    · rw [heq]; exact not_mem_purged hk hlive
    · cases hs.symm.trans hs'
      exact hgone k hk hr hlive
  · next hnot =>
    refine ⟨h, h.progress.elim id fun ⟨hc, hm, start, hs, _⟩ => ?_⟩
    obtain ⟨l', hl⟩ := isSome_iff_exists.mp hc
    obtain ⟨live', hm⟩ := isSome_iff_exists.mp hm
    exact absurd hm (hnot start l' live' hs hl)

theorem resumable_restart (t : MarkSetType) (crashes : List Nat) :
    Resumable d₀ l live (restart t d crashes) ∧ (restart t d crashes).hot = purged d₀ l live := by
  induction crashes generalizing d with
  | nil => exact ⟨(resumable_complete h t).1.all, (resumable_complete h t).2⟩
  | cons n crashes ih => exact ih ((resumable_complete h t).1.take n)

end

/-- Before the checkpoint is created a restart does nothing. -/
theorem restart_of_none (h : d.checkpoint = none) (t : MarkSetType) (crashes : List Nat) :
    restart t d crashes = d := by
  have hnil : completeCompaction t d = [] := by simp [completeCompaction, h]
  induction crashes with
  | nil => simp [restart, hnil, run]
  | cons n crashes ih => simpa [restart, hnil, run] using ih

end CompactionLemmas

end Purge

namespace CompactionLemmas

theorem run_writeColdset (d : Disk K) (flushed : List (List K)) (l : List K) :
    run d (flushed.map .writeColdset ++ [.writeColdset l]) = { d with coldset := some l } := by
  induction flushed generalizing d with
  | nil => rfl
  | cons l' flushed ih => exact ih _

theorem run_putCold (d : Disk K) (bs : List (List K)) :
    run d (bs.map .putCold) = { d with cold := d.cold ∪ bs.flatten.toFinset } := by
  induction bs generalizing d with
  | nil => simp [run]
  | cons b bs ih => exact (ih _).trans (by simp [Op.apply, Finset.union_assoc])

theorem run_prepare (d : Disk K) (c : Collected K) :
    run d (prepare d c) = { d with
      coldset := some c.coldset
      cold := d.cold ∪ (c.coldset.filter (· ∈ d.hot)).toFinset
      marks := some c.live } := by
  rw [prepare, run_append, append_cons, run_append, run_writeColdset, run_putCold,
    flatten_batches]
  rfl

theorem resumable_newCheckpoint (d : Disk K) (c : Collected K) :
    Resumable d c.coldset c.live (Op.newCheckpoint.apply (run d (prepare d c))) := by
  rw [run_prepare]
  refine ⟨Finset.Subset.refl _, Finset.sdiff_subset, Finset.subset_union_left, fun k hk hl => ?_,
    fun _ hl => (some.inj hl).symm, fun _ hm => (some.inj hm).symm,
    .inr ⟨rfl, rfl, none, rfl, fun k hk hr => absurd hk hr⟩⟩
  exact Finset.mem_union_right _ (by simp [hk, hl])

theorem along_prepare {d : Disk K} (h : d.checkpoint = none) (c : Collected K) :
    Along (fun d' => d'.hot = d.hot ∧ d.cold ⊆ d'.cold ∧ d'.checkpoint = none) d
      (prepare d c) := by
  refine along_of_kept ⟨rfl, Finset.Subset.refl _, h⟩ fun op hop d' ⟨hhot, hcold, hnone⟩ => ?_
  simp only [prepare, mem_append, List.mem_map, mem_cons, not_mem_nil,
    or_false] at hop
  rcases hop with (⟨l, -, rfl⟩ | rfl | ⟨b, -, rfl⟩) | rfl
  · exact ⟨hhot, hcold, hnone⟩
  · exact ⟨hhot, hcold, hnone⟩
  · exact ⟨hhot, hcold.trans Finset.subset_union_left, hnone⟩
  · exact ⟨hhot, hcold, hnone⟩

end CompactionLemmas

open CompactionLemmas

/-- Wherever `doCompact` is cut, and wherever the restarts after it are cut. -/
theorem recovers (t : MarkSetType) (d : Disk K) (c : Collected K) (ops : List (Op K))
    (h : doCompact t d c = some ops) (n : Nat) (crashes : List Nat) :
    let r := restart t (run d (ops.take n)) crashes
    d.hot ∪ d.cold ⊆ r.hot ∪ r.cold ∧ (.newCheckpoint ∈ ops.take n → r.hot = (run d ops).hot) := by
  unfold doCompact at h
  split at h
  · cases h
  next hnone =>
  have hnone : d.checkpoint = none := by simpa using hnone
  obtain rfl := some.inj h
  have hbegun := resumable_newCheckpoint d c
  obtain ⟨halong, hdone⟩ := along_purge hbegun [] rfl (by rw [run_prepare]; rfl)
    (by rw [run_prepare]; rfl) (fun k hk hr => absurd hk hr) t
  rcases Nat.lt_or_ge (prepare d c).length n with hn | hn
  · -- The checkpoint exists: the restarts complete the purge.
    obtain ⟨m, rfl⟩ := Nat.exists_eq_add_of_lt hn
    rw [Nat.add_assoc, take_length_add_append, take_succ_cons, run_append, run_append]
    obtain ⟨hr, hhot⟩ := resumable_restart (halong.take m) t crashes
    exact ⟨not_lost hr, fun _ => hhot.trans hdone.symm⟩
  · -- Nothing has been purged.
    rw [take_append_of_le_length hn]
    obtain ⟨hhot, hcold, hcp⟩ := (along_prepare hnone c).take n
    rw [restart_of_none hcp]
    refine ⟨Finset.union_subset_union hhot.symm.subset hcold, fun hmem => ?_⟩
    have := mem_of_mem_take hmem
    simp [prepare] at this

/-- Of three cold objects one is marked in the critical section. The first crash
comes after the first checkpoint, the second one at once. -/
theorem recovers_twice : let d : Disk Nat := ⟨{1, 2, 3, 4}, {5}, none, none, none⟩
    let c : Collected Nat := ⟨[1, 2, 3, 4], {4}, {2, 4}, [[], [1]]⟩
    ∃ ops, doCompact .map d c = some ops ∧
      (restart .map (run d (ops.take 8)) [1]).hot = (run d ops).hot :=
  ⟨_, rfl, (recovers .map _ _ _ rfl 8 [1]).2 (by decide)⟩

end OpenDsn.Splitstore
