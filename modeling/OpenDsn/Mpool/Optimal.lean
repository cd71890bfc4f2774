import OpenDsn.Mpool.Greedy

/-!
# Optimal selection

`selectMessagesOptimal` of `chain/messagepool/selection.go`. The chains are laid
out over the blocks of an epoch, weighted with the probability of their block and
sorted by that weight. The order of a sender's chains is lost by this, so a chain
is merged together with all chains before it that are not merged yet. What room is
left is filled from the tail, and then at random.

* `selectOptimal_spec`: the selection ends, keeps the limits of the block, and
  takes of every sender the first messages of the chains.
-/

namespace OpenDsn.Mpool

open Lib Chain List

/-- What the selection does not determine. `resort` is the call of
`sort.SliceStable` in the merge loop: its `less` reads places of the whole list
instead of places of the part that is sorted, so of its result nothing is known
but that it has the same chains. `shuffle` is `shuffleChains`. -/
structure Choices where
  resort : Heap → List ChainId → List ChainId → List ChainId
  resort_perm : ∀ h front rest, (resort h front rest).Perm rest
  shuffle : List ChainId → List ChainId
  shuffle_perm : ∀ l, (shuffle l).Perm l
  blockProbabilities : ℚ → Nat → ℚ

/-! ## Effective performance -/

def maxBlocks : Nat := 15

def setEffectivePerf (bp : ℚ) (h : Heap) (id : ChainId) : Heap :=
  let mc := { h.cell id with bp := bp }
  h.set id (setEffPerf (mc.prev.map h.cell) mc)

def setNullEffectivePerf (h : Heap) (id : ChainId) : Heap :=
  let mc := h.cell id
  h.set id { mc with effPerf := if mc.gasPerf < 0 then mc.gasPerf else 0 }

/-- The chains of one block, without trimming, and the rest. -/
def takeBlock (h : Heap) : Int → Int → List ChainId → List ChainId × List ChainId
  | _, _, [] => ([], [])
  | gasLimit, msgLimit, id :: rest =>
      let gasLimit' := gasLimit - (h.cell id).gasLimit
      let msgLimit' := msgLimit - (h.cell id).msgs.length
      if gasLimit' < minGas ∨ msgLimit' ≤ 0 then ([id], rest)
      else
        let r := takeBlock h gasLimit' msgLimit' rest
        (id :: r.1, r.2)

/-- The partitions, and the chains that do not fit in any of them. -/
def partitionChains (h : Heap) : Nat → List ChainId → List (List ChainId) × List ChainId
  | 0, chains => ([], chains)
  | n + 1, chains =>
      let block := takeBlock h blockGasLimit blockMessageLimit chains
      let r := partitionChains h n block.2
      (block.1 :: r.1, r.2)

def weighBlocks (blockProb : Nat → ℚ) : Nat → Heap → List (List ChainId) → Heap
  | _, h, [] => h
  | i, h, block :: blocks =>
      weighBlocks blockProb (i + 1) (block.foldl (setEffectivePerf (blockProb i)) h) blocks

/-- Steps 3 and 4: every chain gets its effective performance. -/
def weigh (blockProb : Nat → ℚ) (h : Heap) (chains : List ChainId) : Heap :=
  let r := partitionChains h maxBlocks chains
  r.2.foldl setNullEffectivePerf (weighBlocks blockProb 0 h r.1)

/-- The chains after the first one that follows a merged chain. -/
def adjustRest : Nat → Heap → Option ChainId → Heap
  | 0, h, _ => h
  | _ + 1, h, none => h
  | fuel + 1, h, some next =>
      let mc := h.cell next
      if mc.effPerf > 0 then
        adjustRest fuel (h.set next (setEffPerf (mc.prev.map h.cell) mc)) mc.next
      else h

/-- The effective performance of the chains behind a merged one is adjusted. -/
def adjustNext (h : Heap) (id : ChainId) : Heap :=
  match (h.cell id).next with
  | none => h
  | some next =>
      let mc := h.cell next
      if mc.effPerf > 0 then
        adjustRest h.bound (h.set next { mc with effPerf := mc.effPerf + mc.parentOffset }) mc.next
      else h

/-! ## The loops -/

/-- The state of the loops: `rest` are the chains from `last` on. -/
structure Packing where
  heap : Heap
  sm : SelectedMessages
  front : List ChainId
  rest : List ChainId

/-- The merge loop; the first argument is the number of chains ahead. -/
def mergeEffective (choices : Choices) (baseFee : Int) : Nat → Packing → Packing
  | 0, st => st
  | n + 1, st =>
      match st.rest with
      | [] => st
      | id :: rest =>
          -- did we run out of performing chains?
          if (st.heap.cell id).gasPerf < 0 then
            { st with front := st.front ++ id :: rest, rest := [] }
          else if (st.heap.cell id).merged then
            mergeEffective choices baseFee n { st with front := st.front ++ [id], rest := rest }
          else
            match tryToAddWithDeps st.heap st.sm id baseFee with
            | (h, some sm) =>
                let h := adjustNext h id
                let front := st.front ++ [id]
                mergeEffective choices baseFee n ⟨h, sm, front, choices.resort h front rest⟩
            | (h, none) => { st with heap := h }

/-- The inner loop of the tail loop; `true` asks for another round. -/
def packWithDeps (baseFee : Int) :
    Heap → SelectedMessages → List ChainId → Heap × SelectedMessages × Bool
  | h, sm, [] => (h, sm, false)
  | h, sm, id :: rest =>
      if (h.cell id).valid = false then packWithDeps baseFee h sm rest
      else if (h.cell id).merged then packWithDeps baseFee h sm rest
      else if (h.cell id).gasPerf < 0 then (h, sm, false)
      else
        match tryToAddWithDeps h sm id baseFee with
        | (h', some sm') => packWithDeps baseFee h' sm' rest
        | (h', none) => (h', sm, true)

/-- The tail loop. `last` does not move when a round is repeated, so the first
chain of `rest` may be a merged one. -/
def effTailLoop (baseFee : Int) : Nat → Packing → Option Packing
  | 0, _ => none
  | fuel + 1, st =>
      match st.rest with
      | [] => some st
      | id :: rest =>
          if st.sm.gasLimit < minGas then some st
          else if (st.heap.cell id).valid = false then
            effTailLoop baseFee fuel { st with front := st.front ++ [id], rest := rest }
          else
            let h := trimChain st.heap st.sm id baseFee
            let chains :=
              if (h.cell id).valid then
                pushDown (fun a b => (h.cell a).beforeEffective (h.cell b)) id rest
              else id :: rest
            let r := packWithDeps baseFee h st.sm chains
            if r.2.2 then effTailLoop baseFee fuel ⟨r.1, r.2.1, st.front, chains⟩
            else some ⟨r.1, r.2.1, st.front, chains⟩

/-- The room that is left is filled with chains in random order. -/
def fillRandom (baseFee : Int) : Heap → SelectedMessages → List ChainId → SelectedMessages
  | _, sm, [] => sm
  | h, sm, id :: rest =>
      if sm.gasLimit < minGas ∨ sm.room ≤ 0 then sm
      else if (h.cell id).merged ∨ (h.cell id).valid = false then fillRandom baseFee h sm rest
      else if (h.cell id).gasPerf < 0 then fillRandom baseFee h sm rest
      else
        match tryToAddWithDeps h sm id baseFee with
        | (h', some sm') => fillRandom baseFee h' sm' rest
        | (h', none) =>
            if (h'.cell id).valid then
              -- the chain got trimmed by the call before and may now be included
              let r := tryToAddWithDeps h' sm id baseFee
              fillRandom baseFee r.1 (r.2.getD sm) rest
            else fillRandom baseFee h' sm rest

/-- Steps 2 to 7 and the random fill. -/
def selectOptimal (env : Env) (choices : Choices) (h : Heap) (ids : List ChainId)
    (sm : SelectedMessages) (baseFee : Int) (tq : ℚ) : Option SelectedMessages :=
  match env.sorter.sort (fun a b => (h.cell a).before (h.cell b)) ids with
  | [] => some sm
  | best :: rest =>
      if (h.cell best).gasPerf < 0 then some sm
      else
        let h := weigh (choices.blockProbabilities tq) h (best :: rest)
        let chains :=
          env.sorter.sort (fun a b => (h.cell a).beforeEffective (h.cell b)) (best :: rest)
        let st := mergeEffective choices baseFee chains.length ⟨h, sm, [], chains⟩
        -- a round of the tail loop cuts a message off or passes over a chain
        match effTailLoop baseFee (msgCount st.heap st.rest + st.rest.length + 1) st with
        | none => none
        | some st =>
            if st.sm.gasLimit ≥ minGas ∧ 0 ≤ st.sm.room then
              some (fillRandom baseFee st.heap st.sm (choices.shuffle (st.front ++ st.rest)))
            else some st.sm

namespace OptimalLemmas

open ChainHeapLemmas ChainsLemmas GreedyLemmas

variable {chains : Address → List (List SignedMessage)} {sig : Address → SigType}
  {h h' : Heap} {sm sm' : SelectedMessages} {T : List (Piece Address SignedMessage)}
  {base : List SignedMessage} {id : ChainId} {o : Address} {i : Nat} {k n : Nat}

/-! ## Weights do not touch the chains -/

/-- `c'` has the messages, the gas and the links of `c`. -/
structure SameData (c c' : MsgChain) : Prop where
  msgs : c'.msgs = c.msgs
  gasLimit : c'.gasLimit = c.gasLimit
  prev : c'.prev = c.prev
  next : c'.next = c.next
  valid : c'.valid = c.valid
  sigType : c'.sigType = c.sigType

theorem SameData.refl (c : MsgChain) : SameData c c := ⟨rfl, rfl, rfl, rfl, rfl, rfl⟩

theorem SameData.trans {c c' c'' : MsgChain} (h : SameData c c') (h' : SameData c' c'') :
    SameData c c'' :=
  ⟨h'.msgs.trans h.msgs, h'.gasLimit.trans h.gasLimit, h'.prev.trans h.prev, h'.next.trans h.next,
    h'.valid.trans h.valid, h'.sigType.trans h.sigType⟩

theorem HeapInv.congr (hinv : HeapInv chains sig h) (hbound : h'.bound = h.bound)
    (hsame : ∀ j, SameData (h.cell j) (h'.cell j)) : HeapInv chains sig h' := by
  refine ⟨fun o => ?_, fun o i hi => ?_, fun o i hi => ?_, fun o i c hc => ?_, fun o i hi hv => ?_,
    fun o i hi hv => ?_, fun o i hi => ?_, fun o i hi hv => ?_⟩
  · rw [hbound]
    exact hinv.bound o
  · rw [(hsame _).prev]
    exact hinv.prev o i hi
  · rw [(hsame _).next]
    exact hinv.next o i hi
  · rw [(hsame _).msgs]
    exact hinv.part o i c hc
  · rw [(hsame _).valid] at hv
    rw [(hsame _).msgs]
    exact hinv.nonempty o i hi hv
  · rw [(hsame _).valid] at hv
    rw [(hsame _).msgs, (hsame _).gasLimit]
    exact hinv.gas o i hi hv
  · rw [(hsame _).sigType]
    exact hinv.sigType o i hi
  · rw [(hsame _).valid] at hv
    rw [(hsame _).valid, (hsame _).next, (hsame _).msgs]
    exact hinv.dep o i hi hv

/-- Only weights differ between the two heaps. -/
structure Reweighs (h h' : Heap) : Prop where
  bound : h'.bound = h.bound
  same : ∀ j, SameData (h.cell j) (h'.cell j)
  merged : ∀ j, (h'.cell j).merged = (h.cell j).merged

theorem Reweighs.refl (h : Heap) : Reweighs h h := ⟨rfl, fun _ => .refl _, fun _ => rfl⟩

theorem Reweighs.trans {h'' : Heap} (hr : Reweighs h h') (hr' : Reweighs h' h'') : Reweighs h h'' :=
  ⟨hr'.bound.trans hr.bound, fun j => (hr.same j).trans (hr'.same j),
    fun j => (hr'.merged j).trans (hr.merged j)⟩

theorem same_set {c : MsgChain} (hsame : SameData (h.cell id) c) (j : ChainId) :
    SameData (h.cell j) ((h.set id c).cell j) := by
  by_cases hj : j = id
  · subst hj
    rwa [set_here]
  · rw [set_elsewhere h c hj]
    exact .refl _

theorem reweighs_set {c : MsgChain} (hsame : SameData (h.cell id) c)
    (hmerged : c.merged = (h.cell id).merged) : Reweighs h (h.set id c) := by
  refine ⟨rfl, same_set hsame, fun j => ?_⟩
  by_cases hj : j = id
  · subst hj
    rwa [set_here]
  · rw [set_elsewhere h c hj]

theorem reweighs_setEffPerf (prev : Option MsgChain) {mc : MsgChain}
    (hsame : SameData (h.cell id) mc)
    (hmerged : mc.merged = (h.cell id).merged) : Reweighs h (h.set id (setEffPerf prev mc)) := by
  obtain ⟨hs, hg⟩ := setEffPerf_same prev mc
  refine reweighs_set (hsame.trans ?_) (hs.merged.trans hmerged)
  exact ⟨hs.msgs, hg, hs.prev, hs.next, hs.valid, hs.sigType⟩

theorem foldl_reweighs {f : Heap → ChainId → Heap} (hf : ∀ h id, Reweighs h (f h id))
    (l : List ChainId) (h : Heap) : Reweighs h (l.foldl f h) := by
  induction l generalizing h with
  | nil => exact .refl h
  | cons id l ih => exact (hf h id).trans (ih (f h id))

theorem weigh_reweighs (blockProb : Nat → ℚ) (h : Heap) (ids : List ChainId) :
    Reweighs h (weigh blockProb h ids) := by
  have hset : ∀ (bp : ℚ) (h : Heap) (id : ChainId), Reweighs h (setEffectivePerf bp h id) :=
    fun bp h id => reweighs_setEffPerf _ ⟨rfl, rfl, rfl, rfl, rfl, rfl⟩ rfl
  have hnull : ∀ (h : Heap) (id : ChainId), Reweighs h (setNullEffectivePerf h id) :=
    fun h id => reweighs_set ⟨rfl, rfl, rfl, rfl, rfl, rfl⟩ rfl
  have hblocks : ∀ (blocks : List (List ChainId)) (i : Nat) (h : Heap),
      Reweighs h (weighBlocks blockProb i h blocks) := by
    intro blocks
    induction blocks with
    | nil => exact fun _ h => .refl h
    | cons block blocks ih =>
      intro i h
      exact (foldl_reweighs (hset (blockProb i)) block h).trans (ih (i + 1) _)
  exact (hblocks _ 0 h).trans (foldl_reweighs hnull _ _)

theorem adjustRest_reweighs (fuel : Nat) (h : Heap) (next : Option ChainId) :
    Reweighs h (adjustRest fuel h next) := by
  induction fuel generalizing h next with
  | zero => exact .refl h
  | succ fuel ih =>
    cases next with
    | none => exact .refl h
    | some id =>
      unfold adjustRest
      dsimp only
      split
      · exact (reweighs_setEffPerf _ (.refl _) rfl).trans (ih _ _)
      · exact .refl h

theorem adjustNext_reweighs (h : Heap) (id : ChainId) : Reweighs h (adjustNext h id) := by
  unfold adjustNext
  split
  · exact .refl h
  · next next _ =>
    dsimp only
    split
    · have hfirst : Reweighs h (h.set next { h.cell next with
          effPerf := (h.cell next).effPerf + (h.cell next).parentOffset }) :=
        reweighs_set ⟨rfl, rfl, rfl, rfl, rfl, rfl⟩ rfl
      exact hfirst.trans (adjustRest_reweighs _ _ _)
    · exact .refl h

/-! ## Merged chains are the taken ones -/

theorem markMerged_same (h : Heap) (id j : ChainId) :
    SameData (h.cell j) ((markMerged h id).cell j) := by
  refine same_set ?_ j
  exact ⟨rfl, rfl, rfl, rfl, rfl, rfl⟩

theorem markMerged_here : ((markMerged h id).cell id).merged = true := by
  rw [markMerged, set_here]

variable (chains sig) in
variable (h T) in
/-- The pieces `T` were taken: the merged chains are those with a piece, which may
have been cut afterwards. -/
structure OptInv : Prop where
  heap : HeapInv chains sig h
  taken : Taken chains T
  merged : ∀ o i, i < (chains o).length →
    ((h.cell ⟨o, i⟩).merged = true ↔ ∃ items, ⟨o, i, items⟩ ∈ T)
  left : ∀ p ∈ T, (h.cell ⟨p.owner, p.index⟩).msgs <+: p.items

section

variable (ho : OptInv chains sig h T)
include ho

theorem OptInv.reweigh (hr : Reweighs h h') : OptInv chains sig h' T where
  heap := HeapInv.congr ho.heap hr.bound hr.same
  taken := ho.taken
  merged o i hi := by
    rw [hr.merged]
    exact ho.merged o i hi
  left p hp := by
    rw [(hr.same _).msgs]
    exact ho.left p hp

theorem OptInv.cutAt (hcut : CutAt (chains id.owner).length h h' id) : OptInv chains sig h' T where
  heap := ho.heap.cutAt hcut
  taken := ho.taken
  merged o i hi := by
    rw [(hcut.cut _).merged]
    exact ho.merged o i hi
  left p hp := (hcut.cut _).msgs.trans (ho.left p hp)

/-- A merged chain before a valid one was taken in full. -/
theorem OptInv.full_of_merged
    (hi : i + 1 < (chains o).length) (hv : (h.cell ⟨o, i + 1⟩).valid = true)
    (hm : (h.cell ⟨o, i⟩).merged = true) {c : List SignedMessage} (hc : (chains o)[i]? = some c) :
    ⟨o, i, c⟩ ∈ T := by
  obtain ⟨items, hmem⟩ := (ho.merged o i (Nat.lt_of_succ_lt hi)).mp hm
  have hfull := (ho.heap.dep o i hi hv).2.2
  rw [hc] at hfull
  obtain ⟨full, hchain, hpart⟩ := ho.taken.chain_of_mem hmem
  rw [show (chains o)[i]? = some full from hchain] at hc
  cases hc
  have hleft := ho.left _ hmem
  rw [← Option.some.inj hfull] at hleft
  rwa [← List.IsPrefix.eq_of_length_le hpart hleft.length_le]

/-- A valid chain is merged when the chain before it is. -/
theorem OptInv.mergeOne (hi : i < (chains o).length) (hv : (h.cell ⟨o, i⟩).valid = true)
    (hm : (h.cell ⟨o, i⟩).merged = false)
    (hprev : ∀ j, i = j + 1 → (h.cell ⟨o, j⟩).merged = true) :
    OptInv chains sig (markMerged h ⟨o, i⟩) (T ++ [⟨o, i, (h.cell ⟨o, i⟩).msgs⟩]) := by
  have hc := getElem?_eq_getElem hi
  refine ⟨HeapInv.congr ho.heap rfl (markMerged_same h _), ?_, fun o' i' hi' => ?_, fun p hp => ?_⟩
  · refine .snoc ho.taken ?_ hc (ho.heap.part o i _ hc) ?_
    · rintro ⟨o', i', items⟩ hq rfl rfl
      have := (ho.merged o' i' hi).mpr ⟨items, hq⟩
      rw [hm] at this
      cases this
    · intro j hj c hcj
      dsimp only at hj hcj ⊢
      obtain ⟨k, rfl⟩ : ∃ k, i = k + 1 := ⟨i - 1, by omega⟩
      have hck := getElem?_eq_getElem (Nat.lt_of_succ_lt hi)
      have hmem := ho.full_of_merged hi hv (hprev k rfl) hck
      rcases Nat.eq_or_lt_of_le (Nat.le_of_lt_succ hj) with rfl | hlt
      · rw [hcj] at hck
        cases hck
        exact hmem
      · exact ho.taken.deps_of_mem hmem j hlt c hcj
  · by_cases hj : (⟨o', i'⟩ : ChainId) = ⟨o, i⟩
    · cases hj
      rw [markMerged_here]
      exact ⟨fun _ => ⟨_, mem_append_right _ (mem_singleton.mpr rfl)⟩, fun _ => rfl⟩
    · rw [markMerged, set_elsewhere _ _ hj, ho.merged o' i' hi']
      refine exists_congr fun items => ⟨mem_append_left _, fun hmem => ?_⟩
      rcases mem_append.mp hmem with hmem | hmem
      · exact hmem
      · cases mem_singleton.mp hmem
        exact absurd rfl hj
  · rw [(markMerged_same h _ _).msgs]
    exact forall_mem_snoc ho.left prefix_rfl p hp

end

/-! ## A chain with its dependencies -/

/-- The chains of `o` from place `k` on. -/
def run (o : Address) (k n : Nat) : List ChainId := (List.range' k n).map fun i => ⟨o, i⟩

theorem run_succ (k n : Nat) : run o k (n + 1) = run o k n ++ [⟨o, k + n⟩] := by
  rw [run, run, range'_concat, map_append, one_mul]
  rfl

theorem mem_run : id ∈ run o k n ↔ ∃ j, k ≤ j ∧ j < k + n ∧ id = ⟨o, j⟩ := by
  simp [run, mem_range'_1, and_assoc, eq_comm]

/-- The dependencies of a chain are the chains before it back to a merged one. -/
theorem chainDeps_eq (hinv : HeapInv chains sig h) (hi : i < (chains o).length) :
    ∃ k n, k + n = i ∧ (chainDeps h i (h.cell ⟨o, i⟩).prev).reverse = run o k n ∧
      (∀ j, k ≤ j → j < i → (h.cell ⟨o, j⟩).merged = false) ∧
      ∀ j, k = j + 1 → (h.cell ⟨o, j⟩).merged = true := by
  induction i with
  | zero =>
    exact ⟨0, 0, rfl, rfl, fun j _ hj => absurd hj (Nat.not_lt_zero j), fun j hj => nomatch hj⟩
  | succ i ih =>
    rw [hinv.prev o (i + 1) hi, if_pos (Nat.succ_pos i)]
    unfold chainDeps
    simp only [Nat.add_sub_cancel]
    split
    · next hm =>
      refine ⟨i + 1, 0, rfl, rfl, fun j hle hj => absurd hj (Nat.not_lt.mpr hle), fun j hj => ?_⟩
      cases hj
      exact hm
    · next hm =>
      obtain ⟨k, n, rfl, hdeps, hun, hprev⟩ := ih (Nat.lt_of_succ_lt hi)
      refine ⟨k, n + 1, rfl, ?_, fun j hle hj => ?_, hprev⟩
      · rw [reverse_cons, hdeps, run_succ]
      · rcases Nat.eq_or_lt_of_le (Nat.le_of_lt_succ hj) with rfl | hlt
        · simpa using hm
        · exact hun j hle hlt

/-- The chains before a valid one are valid. -/
theorem valid_before (hinv : HeapInv chains sig h)
    (hi : i < (chains o).length) (hv : (h.cell ⟨o, i⟩).valid = true) :
    ∀ j ≤ i, (h.cell ⟨o, j⟩).valid = true := by
  intro j hj
  by_contra hdead
  have := (linked_of_inv hinv o j).dead (Bool.not_eq_true _ ▸ hdead) i hj hi
  rw [hv] at this
  cases this

/-- Merging chains one after the other takes them one after the other. -/
theorem mergeRun (msgs : List SignedMessage)
    (ho : OptInv chains sig h T) (hi : k + n ≤ (chains o).length)
    (hv : ∀ j, k ≤ j → j < k + n → (h.cell ⟨o, j⟩).valid = true)
    (hm : ∀ j, k ≤ j → j < k + n → (h.cell ⟨o, j⟩).merged = false)
    (hprev : ∀ j, k = j + 1 → (h.cell ⟨o, j⟩).merged = true) :
    ∃ h' U, (run o k n).foldl mergeChain (h, msgs) = (h', msgs ++ itemsOf U) ∧
      OptInv chains sig h' (T ++ U) ∧ itemsOf U = (run o k n).flatMap (fun d => (h.cell d).msgs) ∧
      ∀ j, SameData (h.cell j) (h'.cell j) := by
  induction n generalizing k h T msgs with
  | zero => exact ⟨h, [], by simp [run], by rwa [append_nil], by simp [run], fun j => .refl _⟩
  | succ n ih =>
    have hrun : run o k (n + 1) = ⟨o, k⟩ :: run o (k + 1) n := by
      rw [run, range'_succ, map_cons, run]
    have hone := ho.mergeOne (by omega) (hv k (le_refl k) (by omega))
      (hm k (le_refl k) (by omega)) hprev
    have hother : ∀ j, k + 1 ≤ j → (markMerged h ⟨o, k⟩).cell ⟨o, j⟩ = h.cell ⟨o, j⟩ :=
      fun j hj => set_index h _ (ne_of_gt hj)
    have hlater : ∀ j, k + 1 ≤ j → j < k + 1 + n →
        ((markMerged h ⟨o, k⟩).cell ⟨o, j⟩).valid = true ∧
          ((markMerged h ⟨o, k⟩).cell ⟨o, j⟩).merged = false := by
      intro j hle hlt
      rw [hother j hle]
      exact ⟨hv j (by omega) (by omega), hm j (by omega) (by omega)⟩
    obtain ⟨h', U, hfold, hopt, hitems, hdata⟩ := ih (k := k + 1)
      (msgs ++ (h.cell ⟨o, k⟩).msgs) hone (by omega) (fun j hle hlt => (hlater j hle hlt).1)
      (fun j hle hlt => (hlater j hle hlt).2) fun j hj => by
        cases Nat.succ.inj hj
        exact markMerged_here
    have hcons : itemsOf (⟨o, k, (h.cell ⟨o, k⟩).msgs⟩ :: U) =
        (h.cell ⟨o, k⟩).msgs ++ itemsOf U := rfl
    rw [hrun, foldl_cons]
    refine ⟨h', ⟨o, k, (h.cell ⟨o, k⟩).msgs⟩ :: U, ?_, ?_, ?_,
      fun j => (markMerged_same h _ j).trans (hdata j)⟩
    · rw [hcons, ← append_assoc]
      exact hfold
    · rw [append_cons]
      exact hopt
    · rw [hcons, hitems, flatMap_cons]
      congr 1
      exact flatMap_congr fun d _ => (markMerged_same h _ d).msgs

/-- The gas and the number of the messages that are merged with a chain. -/
theorem depGas_eq {deps : List ChainId}
    (hgas : ∀ d ∈ deps, (h.cell d).gasLimit = gasOf (h.cell d).msgs) :
    depGas h deps = gasOf (deps.reverse.flatMap fun d => (h.cell d).msgs) := by
  induction deps with
  | nil => rfl
  | cons d deps ih =>
    obtain ⟨hd, hdeps⟩ := forall_mem_cons.mp hgas
    rw [depGas, ih hdeps, reverse_cons, flatMap_append, gasOf_append, hd, add_comm]
    simp

theorem msgCount_eq (h : Heap) (deps : List ChainId) :
    msgCount h deps = (deps.reverse.flatMap fun d => (h.cell d).msgs).length := by
  induction deps with
  | nil => rfl
  | cons d deps ih =>
    rw [msgCount, ih, reverse_cons, flatMap_append, length_append, add_comm]
    simp

variable (ht : Typed chains sig)
include ht

/-- The messages of the chains of a run have the signature type of their sender. -/
theorem run_typed (hinv : HeapInv chains sig h)
    (hle : k + n ≤ (chains o).length) {m : SignedMessage}
    (hm : m ∈ (run o k n).flatMap fun d => (h.cell d).msgs) : m.signature.type = sig o := by
  obtain ⟨d, hd, hmd⟩ := mem_flatMap.mp hm
  obtain ⟨j, hj, hlt, rfl⟩ := mem_run.mp hd
  have hjr : j < (chains o).length := hlt.trans_le hle
  have hid : (⟨o, j⟩ : ChainId).index < (chains (⟨o, j⟩ : ChainId).owner).length := hjr
  rw [(chain_typed ht hinv hid).2 m hmd, hinv.sigType o j hjr]

/-- What merging a chain with its dependencies takes: the gas and the number of the
messages are those that `tryToAddWithDeps` has compared with the limits. -/
theorem mergeDeps (ho : OptInv chains sig h T) (id : ChainId)
    (hi : id.index < (chains id.owner).length) (hv : (h.cell id).valid = true)
    (hm : (h.cell id).merged = false) (msgs : List SignedMessage) {deps : List ChainId}
    (hd : chainDeps h id.index (h.cell id).prev = deps) :
    ∃ h' U, (deps.reverse ++ [id]).foldl mergeChain (h, msgs) = (h', msgs ++ itemsOf U) ∧
      OptInv chains sig h' (T ++ U) ∧ gasOf (itemsOf U) = (h.cell id).gasLimit + depGas h deps ∧
      ((itemsOf U).length : Int) = (h.cell id).msgs.length + msgCount h deps ∧
      (∀ m ∈ itemsOf U, m.signature.type = (h.cell id).sigType) ∧
      ∀ j, SameData (h.cell j) (h'.cell j) := by
  obtain ⟨o, i⟩ := id
  obtain ⟨k, n, rfl, hdeps, hun, hprev⟩ := chainDeps_eq ho.heap hi
  rw [hd] at hdeps
  have hvalid := valid_before ho.heap hi hv
  have hrun : deps.reverse ++ [⟨o, k + n⟩] = run o k (n + 1) := by
    rw [hdeps, run_succ]
  have hmerged : ∀ j, k ≤ j → j < k + (n + 1) → (h.cell ⟨o, j⟩).merged = false := by
    intro j hle hlt
    rcases Nat.eq_or_lt_of_le (Nat.le_of_lt_succ hlt) with rfl | hlt
    · exact hm
    · exact hun j hle hlt
  obtain ⟨h', U, hfold, hopt, hitems, hdata⟩ := mergeRun msgs ho hi
    (fun j _ hlt => hvalid j (Nat.le_of_lt_succ hlt)) hmerged hprev
  have hdepGas : ∀ d ∈ deps, (h.cell d).gasLimit = gasOf (h.cell d).msgs := by
    intro d hmem
    rw [← mem_reverse, hdeps] at hmem
    obtain ⟨j, -, hlt, rfl⟩ := mem_run.mp hmem
    exact ho.heap.gas o j (hlt.trans hi) (hvalid j (le_of_lt hlt))
  have hsplit : itemsOf U = (deps.reverse.flatMap fun d => (h.cell d).msgs) ++
      (h.cell ⟨o, k + n⟩).msgs := by
    rw [hitems, ← hrun, flatMap_append, flatMap_singleton]
  rw [hrun]
  refine ⟨h', U, hfold, hopt, ?_, ?_, fun m hmem => ?_, hdata⟩
  · rw [hsplit, gasOf_append, ← depGas_eq hdepGas, ho.heap.gas o (k + n) hi hv, add_comm]
  · rw [hsplit, length_append, ← msgCount_eq]
    omega
  · rw [hitems] at hmem
    rw [run_typed ht ho.heap hi hmem, ho.heap.sigType o (k + n) hi]

/-- `tryToAddWithDeps` merges a chain with its dependencies, or cuts it. -/
theorem tryToAddWithDeps_spec (ho : OptInv chains sig h T) (hs : SelInv base sm T)
    (hi : id.index < (chains id.owner).length) (hv : (h.cell id).valid = true)
    (hm : (h.cell id).merged = false) (baseFee : Int) :
    (∃ h' sm' U, tryToAddWithDeps h sm id baseFee = (h', some sm') ∧ OptInv chains sig h' U ∧
      SelInv base sm' U ∧ ∀ j, SameData (h.cell j) (h'.cell j)) ∨
    ∃ h', tryToAddWithDeps h sm id baseFee = (h', none) ∧
      CutAt (chains id.owner).length h h' id := by
  obtain ⟨hknown, -⟩ := chain_typed ht ho.heap hi
  obtain ⟨limit, hlimit⟩ : ∃ limit, sm.limitOf (h.cell id).sigType = some limit := by
    rcases hknown with htype | htype <;> rw [htype] <;> exact ⟨_, rfl⟩
  obtain ⟨o, i⟩ := id
  dsimp only at hi
  unfold tryToAddWithDeps
  dsimp only
  rw [hlimit]
  dsimp only
  generalize hsm : (if limit > sm.room then sm.room else limit) = smMsgLimit
  generalize hd : chainDeps h i (h.cell ⟨o, i⟩).prev = deps
  split
  · next hover =>
    right
    split
    · exact ⟨_, rfl, (invalidate_cutAt h.bound (linked_of_inv ho.heap o i) hi
        (le_trans (ho.heap.bound o) (Nat.le_add_left _ _))).1⟩
    · refine ⟨_, rfl, trim_cutAt ho.heap hi hv baseFee ?_⟩
      omega
  · next hfit =>
    left
    obtain ⟨h', U, hfold, hopt, hgas, hlen, htyped, hdata⟩ :=
      mergeDeps ht ho ⟨o, i⟩ hi hv hm sm.msgs hd
    rw [hfold]
    have hle : ((itemsOf U).length : Int) ≤ sm.room ∧ ((itemsOf U).length : Int) ≤ limit := by
      split at hsm <;> omega
    refine ⟨_, _, T ++ U, rfl, hopt, ⟨?_, ?_⟩, hdata⟩
    · refine limits_add hs.limits htyped ?_ hle.1 ?_ rfl ?_ ?_ ?_
      · omega
      · intro limit' hlimit'
        rw [hlimit] at hlimit'
        cases hlimit'
        exact hle.2
      · rw [hgas]
      · rw [hlen]
      · rw [hlen]
    · rw [hs.msgs, itemsOf_append, append_assoc]

/-! ## The loops -/

variable (chains) in
/-- All pointers lead to chains. -/
def InRange (l : List ChainId) : Prop :=
  ∀ id ∈ l, id.index < (chains id.owner).length

/-- The merge loop. No chain is invalid before one does not fit. -/
theorem mergeEffective_spec (choices : Choices) (baseFee : Int) (n : Nat)
    (st : Packing) (ho : OptInv chains sig st.heap T) (hs : SelInv base st.sm T)
    (hr : InRange chains (st.front ++ st.rest))
    (hv : ∀ id ∈ st.rest, (st.heap.cell id).valid = true) :
    ∃ st' U, mergeEffective choices baseFee n st = st' ∧ OptInv chains sig st'.heap U ∧
      SelInv base st'.sm U ∧ InRange chains (st'.front ++ st'.rest) := by
  induction n generalizing st T with
  | zero => exact ⟨st, T, rfl, ho, hs, hr⟩
  | succ n ih =>
    obtain ⟨h, sm, front, rest⟩ := st
    unfold mergeEffective
    cases rest with
    | nil => exact ⟨_, T, rfl, ho, hs, hr⟩
    | cons id rest =>
      have hfront : InRange chains ((front ++ [id]) ++ rest) := by
        rw [append_assoc]
        exact hr
      dsimp only
      split
      · refine ⟨_, T, rfl, ho, hs, ?_⟩
        rw [append_nil]
        exact hr
      split
      · exact ih _ ho hs hfront fun x hx => hv x (mem_cons_of_mem _ hx)
      · next hm =>
        have hid := hr id (by simp)
        rcases tryToAddWithDeps_spec ht ho hs hid (hv id mem_cons_self) (by simpa using hm)
          baseFee with ⟨h', sm', U, heq, ho', hs', hdata⟩ | ⟨h', heq, hcut⟩
        · rw [heq]
          have hadj := adjustNext_reweighs h' id
          have hperm := choices.resort_perm (adjustNext h' id) (front ++ [id]) rest
          refine ih _ (ho'.reweigh hadj) hs' ?_ ?_
          · exact fun x hx => hfront x ((hperm.append_left _).mem_iff.mp hx)
          · intro x hx
            rw [(hadj.same x).valid, (hdata x).valid]
            exact hv x (mem_cons_of_mem _ (hperm.mem_iff.mp hx))
        · rw [heq]
          exact ⟨_, T, rfl, ho.cutAt hcut, hs, hr⟩

omit ht in
theorem msgCount_same (hsame : ∀ j, SameData (h.cell j) (h'.cell j)) (l : List ChainId) :
    msgCount h' l = msgCount h l := by
  induction l with
  | nil => rfl
  | cons d l ih => rw [msgCount, msgCount, ih, (hsame d).msgs]

/-- Packing the tail: another round is asked for only after a chain of the list was
cut. -/
theorem packWithDeps_spec (baseFee : Int) {all rest : List ChainId}
    (hall : ∀ id ∈ rest, id ∈ all) (hr : InRange chains all) (ho : OptInv chains sig h T)
    (hs : SelInv base sm T) :
    ∃ h' sm' again U, packWithDeps baseFee h sm rest = (h', sm', again) ∧
      OptInv chains sig h' U ∧ SelInv base sm' U ∧
      (again = true → msgCount h' all < msgCount h all) := by
  induction rest generalizing h sm T with
  | nil => exact ⟨h, sm, false, T, rfl, ho, hs, fun h => nomatch h⟩
  | cons id rest ih =>
    have hrest : ∀ x ∈ rest, x ∈ all := fun x hx => hall x (mem_cons_of_mem _ hx)
    have hid := hall id mem_cons_self
    unfold packWithDeps
    split
    · exact ih hrest ho hs
    next hv =>
    have hv : (h.cell id).valid = true := by simpa using hv
    split
    · exact ih hrest ho hs
    next hm =>
    split
    · exact ⟨h, sm, false, T, rfl, ho, hs, fun h => nomatch h⟩
    rcases tryToAddWithDeps_spec ht ho hs (hr id hid) hv (by simpa using hm) baseFee with
      ⟨h', sm', U, heq, ho', hs', hdata⟩ | ⟨h', heq, hcut⟩
    · rw [heq]
      obtain ⟨h'', sm'', again, V, hrun, ho'', hs'', hless⟩ := ih hrest ho' hs'
      refine ⟨h'', sm'', again, V, hrun, ho'', hs'', fun hagain => ?_⟩
      rw [← msgCount_same hdata all]
      exact hless hagain
    · rw [heq]
      refine ⟨h', sm, true, T, rfl, ho.cutAt hcut, hs, fun _ => ?_⟩
      obtain ⟨A, B, rfl⟩ := append_of_mem hid
      exact msgCount_lt_of_cutAt hcut (ho.heap.nonempty id.owner id.index (hr id hid) hv) A B

omit ht in
/-- Trimming keeps what is taken and adds no message. -/
theorem trimChain_spec (ho : OptInv chains sig h T) (hi : id.index < (chains id.owner).length)
    (hv : (h.cell id).valid = true) (sm : SelectedMessages) (baseFee : Int) (l : List ChainId) :
    OptInv chains sig (trimChain h sm id baseFee) T ∧
      msgCount (trimChain h sm id baseFee) l ≤ msgCount h l := by
  unfold trimChain
  dsimp only
  split
  · next hover =>
    have hcut := trim_cutAt ho.heap hi hv baseFee hover
    exact ⟨ho.cutAt hcut, msgCount_le_of_cut hcut.cut _⟩
  · exact ⟨ho, le_refl _⟩

theorem effTailLoop_spec (baseFee : Int) {fuel : Nat} {st : Packing}
    (ho : OptInv chains sig st.heap T) (hs : SelInv base st.sm T)
    (hr : InRange chains (st.front ++ st.rest))
    (hfuel : msgCount st.heap st.rest + st.rest.length < fuel) :
    ∃ st' U, effTailLoop baseFee fuel st = some st' ∧ OptInv chains sig st'.heap U ∧
      SelInv base st'.sm U ∧ InRange chains (st'.front ++ st'.rest) := by
  induction fuel generalizing st T with
  | zero => exact absurd hfuel (Nat.not_lt_zero _)
  | succ fuel ih =>
    obtain ⟨h, sm, front, rest⟩ := st
    dsimp only at ho hs hr hfuel
    unfold effTailLoop
    cases rest with
    | nil => exact ⟨_, T, rfl, ho, hs, hr⟩
    | cons id rest =>
      dsimp only
      split
      · exact ⟨_, T, rfl, ho, hs, hr⟩
      split
      · refine ih ho hs ?_ ?_
        · rw [append_assoc]
          exact hr
        · dsimp only
          rw [msgCount, length_cons] at hfuel
          omega
      next hv =>
      have hv : (h.cell id).valid = true := by simpa using hv
      -- trimming and pushing down
      have hid := hr id (by simp)
      obtain ⟨ho₁, hle⟩ := trimChain_spec ho hid hv sm baseFee (id :: rest)
      generalize trimChain h sm id baseFee = h₁ at ho₁ hle ⊢
      obtain ⟨A, B, hrest, hchains⟩ := replaced_eq
        (fun a b => (h₁.cell a).beforeEffective (h₁.cell b)) (h₁.cell id).valid id rest
      rw [hchains]
      subst hrest
      have hperm : (A ++ id :: B).Perm (id :: (A ++ B)) := perm_middle
      have hr₁ : InRange chains (front ++ (A ++ id :: B)) :=
        fun x hx => hr x ((hperm.append_left front).mem_iff.mp hx)
      obtain ⟨h₂, sm₂, again, U, hpack, ho₂, hs₂, hless⟩ := packWithDeps_spec ht baseFee
        (fun x hx => hx) (fun x hx => hr₁ x (mem_append_right _ hx)) ho₁ hs
      rw [hpack]
      split
      · next hagain =>
        refine ih ho₂ hs₂ hr₁ ?_
        have hlt := hless hagain
        have hlen := hperm.length_eq
        simp only [msgCount_append, msgCount] at hlt hle hfuel ⊢
        omega
      · exact ⟨_, U, rfl, ho₂, hs₂, hr₁⟩

theorem fillRandom_spec (baseFee : Int) {l : List ChainId}
    (hr : InRange chains l) (ho : OptInv chains sig h T) (hs : SelInv base sm T) :
    ∃ U, SelInv base (fillRandom baseFee h sm l) U ∧ Taken chains U := by
  induction l generalizing h sm T with
  | nil => exact ⟨T, hs, ho.taken⟩
  | cons id l ih =>
    have hl : InRange chains l := fun x hx => hr x (mem_cons_of_mem _ hx)
    have hid := hr id mem_cons_self
    unfold fillRandom
    split
    · exact ⟨T, hs, ho.taken⟩
    split
    · exact ih hl ho hs
    next hskip =>
    obtain ⟨hm, hv⟩ := not_or.mp hskip
    have hm : (h.cell id).merged = false := by simpa using hm
    have hv : (h.cell id).valid = true := by simpa using hv
    split
    · exact ih hl ho hs
    rcases tryToAddWithDeps_spec ht ho hs hid hv hm baseFee with
      ⟨h', sm', U, heq, ho', hs', -⟩ | ⟨h', heq, hcut⟩
    · rw [heq]
      exact ih hl ho' hs'
    · rw [heq]
      dsimp only
      have ho' := ho.cutAt hcut
      split
      · next hv' =>
        have hm' : (h'.cell id).merged = false := (hcut.cut id).merged.trans hm
        rcases tryToAddWithDeps_spec ht ho' hs hid hv' hm' baseFee with
          ⟨h'', sm', U, heq', ho'', hs', -⟩ | ⟨h'', heq', hcut'⟩
        · rw [heq']
          exact ih hl ho'' hs'
        · rw [heq']
          exact ih hl (ho'.cutAt hcut') hs
      · exact ih hl ho' hs

omit ht in
theorem optInv_ofGroups {gs : List ChainGroup} (hok : GroupsOk gs sig) :
    OptInv (chainMsgs gs) sig (Heap.ofGroups gs) [] := by
  refine ⟨heapInv_ofGroups hok, .nil, fun o i hi => ?_, forall_mem_nil _⟩
  rw [(fresh_ofGroups hok hi).unmerged]
  simp

end OptimalLemmas

open GreedyLemmas OptimalLemmas in
/-- Optimal selection from the chains of `gs` ends, adds to the messages selected
before within the limits of the block, and takes pieces of the chains in order. -/
theorem selectOptimal_spec {gs : List ChainGroup} {sig : Address → SigType} (hok : GroupsOk gs sig)
    (env : Env) (choices : Choices) {sm : SelectedMessages} (hl : Limits sm) (baseFee : Int)
    (tq : ℚ) :
    ∃ sm' T, selectOptimal env choices (Heap.ofGroups gs) (chainIds gs) sm baseFee tq = some sm' ∧
      Limits sm' ∧ sm'.msgs = sm.msgs ++ itemsOf T ∧ Taken (chainMsgs gs) T := by
  have ht := typed_chainMsgs hok
  have hs : SelInv sm.msgs sm [] := ⟨hl, by simp⟩
  have hperm := env.sorter.perm
    (fun a b => ((Heap.ofGroups gs).cell a).before ((Heap.ofGroups gs).cell b)) (chainIds gs)
  unfold selectOptimal
  generalize env.sorter.sort _ (chainIds gs) = R at hperm ⊢
  cases R with
  | nil => exact ⟨sm, [], rfl, hl, by simp, .nil⟩
  | cons best rest =>
    dsimp only
    split
    · exact ⟨sm, [], rfl, hl, by simp, .nil⟩
    have hw := weigh_reweighs (choices.blockProbabilities tq) (Heap.ofGroups gs) (best :: rest)
    generalize weigh (choices.blockProbabilities tq) (Heap.ofGroups gs) (best :: rest) = h at hw ⊢
    have hperm' := (env.sorter.perm
      (fun a b => (h.cell a).beforeEffective (h.cell b)) (best :: rest)).trans hperm
    generalize env.sorter.sort (fun a b => (h.cell a).beforeEffective (h.cell b)) (best :: rest) =
      ids at hperm' ⊢
    have hr : InRange (chainMsgs gs) ([] ++ ids) :=
      fun id hid => (mem_chainIds hok).mp (hperm'.mem_iff.mp hid)
    have hv : ∀ id ∈ ids, (h.cell id).valid = true := by
      intro id hid
      rw [(hw.same id).valid]
      exact (fresh_ofGroups hok ((mem_chainIds hok).mp (hperm'.mem_iff.mp hid))).valid
    obtain ⟨st, T, hmerge, ho₁, hs₁, hr₁⟩ := mergeEffective_spec ht choices baseFee ids.length
      ⟨h, sm, [], ids⟩ ((optInv_ofGroups hok).reweigh hw) hs hr hv
    rw [hmerge]
    obtain ⟨st', U, hrun, ho₂, hs₂, hr₂⟩ :=
      effTailLoop_spec ht baseFee ho₁ hs₁ hr₁ (Nat.lt_succ_self _)
    rw [hrun]
    dsimp only
    split
    · have hshuffle : InRange (chainMsgs gs) (choices.shuffle (st'.front ++ st'.rest)) :=
        fun id hid => hr₂ id ((choices.shuffle_perm _).mem_iff.mp hid)
      obtain ⟨V, hs₃, htaken⟩ := fillRandom_spec ht baseFee hshuffle ho₂ hs₂
      exact ⟨_, V, rfl, hs₃.limits, hs₃.msgs, htaken⟩
    · exact ⟨_, U, rfl, hs₂.limits, hs₂.msgs, ho₂.taken⟩

end OpenDsn.Mpool
