import OpenDsn.Lib.Pieces
import OpenDsn.Mpool.Chains

/-!
# Chains in memory

Message selection changes the chains in place and follows their `next` and `prev`
pointers (`chain/messagepool/selection.go`). The chains are the cells of a heap
here. This module has the operations on chains and on the messages selected so
far, and what they leave intact:

* `HeapInv`: a valid chain has its messages and their gas, and the chain before
  it is valid, complete and linked to it;
* `HeapInv.cutAt`: `Trim` and `Invalidate` keep it, as they invalidate every
  chain that follows.
-/

namespace OpenDsn.Mpool

open Lib Chain List

/-- The chains of a selection by their pointers. No list of linked chains is longer
than `bound`. -/
structure Heap where
  cell : ChainId → MsgChain
  bound : Nat

/-- The chains of one sender. -/
structure ChainGroup where
  owner : Address
  chains : List MsgChain

/-- What a pointer to no chain reads. -/
def noChain : MsgChain where
  msgs := []
  gasReward := 0
  gasLimit := 0
  gasPerf := 0
  effPerf := 0
  bp := 0
  parentOffset := 0
  valid := false
  merged := false
  next := none
  prev := none
  sigType := .bls

/-- The chains that were made for a sender. -/
def groupOf (gs : List ChainGroup) (o : Address) : List MsgChain :=
  ((gs.find? fun g => g.owner = o).map ChainGroup.chains).getD []

/-- The heap with the chains as they are made. -/
def Heap.ofGroups (gs : List ChainGroup) : Heap where
  cell id := (groupOf gs id.owner)[id.index]?.getD noChain
  bound := (gs.flatMap ChainGroup.chains).length

/-- The pointers to all chains. -/
def chainIds (gs : List ChainGroup) : List ChainId :=
  gs.flatMap fun g => (List.range g.chains.length).map fun i => ⟨g.owner, i⟩

def Heap.set (h : Heap) (id : ChainId) (c : MsgChain) : Heap :=
  { h with cell := fun j => if j = id then c else h.cell j }

/-! ## Operations on chains -/

/-- An invalid chain has no messages. -/
def emptied (mc : MsgChain) : MsgChain := { mc with valid := false, msgs := [] }

/-- `Invalidate`, which goes on with the next chain. -/
def invalidate : Nat → Heap → ChainId → Heap
  | 0, h, _ => h
  | fuel + 1, h, id =>
      let mc := h.cell id
      match mc.next with
      | none => h.set id (emptied mc)
      | some next =>
          (invalidate fuel (h.set id (emptied mc)) next).set id { emptied mc with next := none }

/-- `setEffPerf` of a chain with the chain `prev` before it. -/
def setEffPerf (prev : Option MsgChain) (mc : MsgChain) : MsgChain :=
  let effPerf := mc.gasPerf * mc.bp
  match prev with
  | none => { mc with effPerf := effPerf }
  | some p =>
      if effPerf > 0 then
        let effPerfWithParent :=
          (effPerf * mc.gasLimit + p.effPerf * p.gasLimit) / ((mc.gasLimit + p.gasLimit : Int) : ℚ)
        { mc with parentOffset := effPerf - effPerfWithParent, effPerf := effPerfWithParent }
      else { mc with effPerf := effPerf }

/-- The accounts of a chain after its last message `m` is cut off. -/
def cutLast (prev : Option MsgChain) (baseFee : Int) (m : SignedMessage) (mc : MsgChain) :
    MsgChain :=
  let mc' := { mc with
    gasReward := mc.gasReward - getGasReward m baseFee
    gasLimit := mc.gasLimit - m.message.gasLimit }
  if mc'.gasLimit > 0 then
    let mc' := { mc' with gasPerf := getGasPerf mc'.gasReward mc'.gasLimit }
    if mc'.bp ≠ 0 then setEffPerf prev mc' else mc'
  else { mc' with gasPerf := 0, effPerf := 0 }

/-- The loop of `Trim` over the messages from the last to the first: the messages
that are left, last first, and the chain with its new accounts. -/
def trimLoop (prev : Option MsgChain) (gasLimit msgLimit baseFee : Int) :
    List SignedMessage → MsgChain → List SignedMessage × MsgChain
  | [], mc => ([], mc)
  | m :: before, mc =>
      if mc.gasLimit > gasLimit ∨ mc.gasPerf < 0 ∨ (before.length : Int) ≥ msgLimit then
        trimLoop prev gasLimit msgLimit baseFee before (cutLast prev baseFee m mc)
      else (m :: before, mc)

/-- `Trim`. Nothing but the chain itself changes before the chains that follow are
invalidated. -/
def trim (h : Heap) (id : ChainId) (gasLimit msgLimit baseFee : Int) : Heap :=
  let mc := h.cell id
  let r := trimLoop (mc.prev.map h.cell) gasLimit msgLimit baseFee mc.msgs.reverse mc
  let mc' := { r.2 with msgs := r.1.reverse, valid := if r.1.isEmpty then false else r.2.valid }
  match mc.next with
  | none => h.set id mc'
  | some next => (invalidate h.bound (h.set id mc') next).set id { mc' with next := none }

/-- `BeforeEffective`. -/
def MsgChain.beforeEffective (mc other : MsgChain) : Bool :=
  -- move merged chains to the front so we can discard them earlier
  (mc.merged && !other.merged) ||
    (mc.gasPerf ≥ 0 && other.gasPerf < 0) ||
    mc.effPerf > other.effPerf ||
    (mc.effPerf = other.effPerf && mc.gasPerf > other.gasPerf) ||
    (mc.effPerf = other.effPerf && mc.gasPerf = other.gasPerf && mc.gasReward > other.gasReward)

/-- A criterion has `mc` before `other` and a later one has it behind: it is merged, or its
performance is not negative. -/
def MsgChain.Conflicts (mc other : MsgChain) : Prop :=
  mc.merged = true ∧ other.merged = false ∧
      (mc.gasPerf < 0 ∧ 0 ≤ other.gasPerf ∨ mc.effPerf < other.effPerf ∨
        mc.effPerf = other.effPerf ∧ (mc.gasPerf < other.gasPerf ∨
          mc.gasPerf = other.gasPerf ∧ mc.gasReward < other.gasReward)) ∨
    0 ≤ mc.gasPerf ∧ other.gasPerf < 0 ∧ mc.effPerf < other.effPerf

/-- The comparison is asymmetric between two chains exactly when the criteria do not conflict. -/
theorem beforeEffective_asymm_iff (mc other : MsgChain) :
    ¬(mc.beforeEffective other = true ∧ other.beforeEffective mc = true) ↔
      ¬mc.Conflicts other ∧ ¬other.Conflicts mc := by
  rw [← not_or, not_iff_not]
  simp only [MsgChain.beforeEffective, MsgChain.Conflicts, Bool.or_eq_true, Bool.and_eq_true,
    decide_eq_true_eq, Bool.not_eq_true']
  rcases lt_trichotomy mc.effPerf other.effPerf with heff | heff | heff
  · grind
  · rcases lt_trichotomy mc.gasPerf other.gasPerf with hperf | hperf | hperf <;> grind
  · grind

/-- A merged chain and one with a better effective performance are each before the other. -/
theorem beforeEffective_both :
    MsgChain.beforeEffective { noChain with merged := true } { noChain with effPerf := 1 } = true ∧
      MsgChain.beforeEffective { noChain with effPerf := 1 } { noChain with merged := true } =
        true := by
  simp [MsgChain.beforeEffective, noChain]

/-! ## The messages selected so far -/

/-- `cbg.MaxLength`. -/
def maxLength : Int := 8192

/-- `gasguess.MinGas`. -/
def minGas : Int := 1298450

structure SelectedMessages where
  msgs : List SignedMessage
  gasLimit : Int
  secpLimit : Int
  blsLimit : Int

/-- The room that is left in the block for the messages. -/
def SelectedMessages.room (sm : SelectedMessages) : Int := blockMessageLimit - sm.msgs.length

/-- `tryToAdd`, with `none` for `false`. -/
def tryToAdd (sm : SelectedMessages) (mc : MsgChain) : Option SelectedMessages :=
  let l : Int := mc.msgs.length
  if sm.room < l ∨ sm.gasLimit < mc.gasLimit then none
  else
    match mc.sigType with
    | .bls =>
        if sm.blsLimit < l then none
        else some { sm with
          msgs := sm.msgs ++ mc.msgs
          blsLimit := sm.blsLimit - l
          gasLimit := sm.gasLimit - mc.gasLimit }
    | .secp256k1 =>
        if sm.secpLimit < l then none
        else some { sm with
          msgs := sm.msgs ++ mc.msgs
          secpLimit := sm.secpLimit - l
          gasLimit := sm.gasLimit - mc.gasLimit }
    -- don't add the weird sigType msg, but otherwise proceed
    | .other _ => some sm

/-- The chains before a chain that are not merged, the nearest one first. -/
def chainDeps (h : Heap) : Nat → Option ChainId → List ChainId
  | 0, _ => []
  | _ + 1, none => []
  | fuel + 1, some cur =>
      if (h.cell cur).merged then [] else cur :: chainDeps h fuel (h.cell cur).prev

/-- The gas of some chains. -/
def depGas (h : Heap) : List ChainId → Int
  | [] => 0
  | d :: deps => (h.cell d).gasLimit + depGas h deps

/-- The number of messages of some chains. -/
def msgCount (h : Heap) : List ChainId → Nat
  | [] => 0
  | d :: deps => (h.cell d).msgs.length + msgCount h deps

def markMerged (h : Heap) (id : ChainId) : Heap := h.set id { h.cell id with merged := true }

/-- A chain is merged into the selected messages. -/
def mergeChain (st : Heap × List SignedMessage) (id : ChainId) : Heap × List SignedMessage :=
  (markMerged st.1 id, st.2 ++ (st.1.cell id).msgs)

/-- The limit for the messages of a signature type; `none` for a type that is not
known. -/
def SelectedMessages.limitOf (sm : SelectedMessages) : SigType → Option Int
  | .bls => some sm.blsLimit
  | .secp256k1 => some sm.secpLimit
  | .other _ => none

/-- `tryToAddWithDeps`, with `none` for `false`. -/
def tryToAddWithDeps (h : Heap) (sm : SelectedMessages) (id : ChainId) (baseFee : Int) :
    Heap × Option SelectedMessages :=
  let mc := h.cell id
  match sm.limitOf mc.sigType with
  | none => (h, none)
  | some limit =>
      let smMsgLimit := if limit > sm.room then sm.room else limit
      let deps := chainDeps h id.index mc.prev
      let depGasLimit := depGas h deps
      let depMsgLimit : Int := msgCount h deps
      let chainGasLimit := mc.gasLimit + depGasLimit
      let chainMsgLimit := mc.msgs.length + depMsgLimit
      if chainGasLimit > sm.gasLimit ∨ chainMsgLimit > smMsgLimit then
        -- if the dependencies exceed the block limits, the chain can never be included
        if depGasLimit > sm.gasLimit ∨ depMsgLimit ≥ smMsgLimit then (invalidate h.bound h id, none)
        else (trim h id (sm.gasLimit - depGasLimit) (smMsgLimit - depMsgLimit) baseFee, none)
      else
        -- the chain fits, together with its dependencies, the farthest one first
        let st := (deps.reverse ++ [id]).foldl mergeChain (h, sm.msgs)
        (st.1, some
          { msgs := st.2
            gasLimit := sm.gasLimit - chainGasLimit
            secpLimit := if mc.sigType = .secp256k1 then sm.secpLimit - chainMsgLimit
              else sm.secpLimit
            blsLimit := if mc.sigType = .bls then sm.blsLimit - chainMsgLimit else sm.blsLimit })

/-- The limit for the number of messages in `trimChain`. -/
def SelectedMessages.msgLimit (sm : SelectedMessages) (t : SigType) : Int :=
  match sm.limitOf t with
  | none => sm.room
  | some limit => if sm.room > limit then limit else sm.room

/-- `trimChain`. -/
def trimChain (h : Heap) (sm : SelectedMessages) (id : ChainId) (baseFee : Int) : Heap :=
  let mc := h.cell id
  let msgLimit := sm.msgLimit mc.sigType
  if mc.gasLimit > sm.gasLimit ∨ mc.msgs.length > msgLimit then
    trim h id sm.gasLimit msgLimit baseFee
  else h

/-! ## What the operations leave intact -/

/-- `c'` is `c` with some of its last messages cut off. -/
structure Cut (c c' : MsgChain) : Prop where
  msgs : c'.msgs <+: c.msgs
  prev : c'.prev = c.prev
  next : c'.next = c.next ∨ c'.next = none
  merged : c'.merged = c.merged
  sigType : c'.sigType = c.sigType
  valid : c'.valid = true → c.valid = true

theorem Cut.refl (c : MsgChain) : Cut c c :=
  ⟨prefix_rfl, rfl, .inl rfl, rfl, rfl, id⟩

/-- The heap after the chain `id` was cut or invalidated, where its owner has `n`
chains: the chains that follow are invalid and no other chain changed. -/
structure CutAt (n : Nat) (h h' : Heap) (id : ChainId) : Prop where
  bound : h'.bound = h.bound
  cut : ∀ j, Cut (h.cell j) (h'.cell j)
  same : ∀ j, j.owner ≠ id.owner ∨ j.index < id.index → h'.cell j = h.cell j
  dead : ∀ j, id.index < j → j < n → (h'.cell ⟨id.owner, j⟩).valid = false
  live : (h'.cell id).valid = true →
    (h'.cell id).msgs ≠ [] ∧ (h'.cell id).gasLimit = gasOf (h'.cell id).msgs
  shorter : (h.cell id).msgs ≠ [] → (h'.cell id).msgs.length < (h.cell id).msgs.length

/-- The heap of a selection from `chains`, where the messages of a sender have the
signature type `sig`. -/
structure HeapInv (chains : Address → List (List SignedMessage)) (sig : Address → SigType)
    (h : Heap) : Prop where
  bound : ∀ o, (chains o).length ≤ h.bound
  prev : ∀ o i, i < (chains o).length →
    (h.cell ⟨o, i⟩).prev = if 0 < i then some ⟨o, i - 1⟩ else none
  next : ∀ o i, i < (chains o).length → (h.cell ⟨o, i⟩).next = none ∨
    (h.cell ⟨o, i⟩).next = some ⟨o, i + 1⟩ ∧ i + 1 < (chains o).length
  part : ∀ o i c, (chains o)[i]? = some c → (h.cell ⟨o, i⟩).msgs <+: c
  nonempty : ∀ o i, i < (chains o).length → (h.cell ⟨o, i⟩).valid = true → (h.cell ⟨o, i⟩).msgs ≠ []
  gas : ∀ o i, i < (chains o).length → (h.cell ⟨o, i⟩).valid = true →
    (h.cell ⟨o, i⟩).gasLimit = gasOf (h.cell ⟨o, i⟩).msgs
  sigType : ∀ o i, i < (chains o).length → (h.cell ⟨o, i⟩).sigType = sig o
  dep : ∀ o i, i + 1 < (chains o).length → (h.cell ⟨o, i + 1⟩).valid = true →
    (h.cell ⟨o, i⟩).valid = true ∧ (h.cell ⟨o, i⟩).next = some ⟨o, i + 1⟩ ∧
      (chains o)[i]? = some (h.cell ⟨o, i⟩).msgs

variable {chains : Address → List (List SignedMessage)} {sig : Address → SigType} {h h' : Heap}
  {o : Address} {i : Nat}

section

variable {id : ChainId} (hcut : CutAt (chains id.owner).length h h' id)
include hcut

/-- A chain that is valid afterwards is the cut one or did not change. -/
theorem CutAt.live_cases (hi : i < (chains o).length)
    (hv : (h'.cell ⟨o, i⟩).valid = true) :
    ⟨o, i⟩ = id ∨ h'.cell ⟨o, i⟩ = h.cell ⟨o, i⟩ := by
  by_cases ho : o = id.owner
  · subst ho
    rcases Nat.lt_trichotomy i id.index with hlt | rfl | hgt
    · exact .inr (hcut.same _ (.inr hlt))
    · exact .inl rfl
    · rw [hcut.dead i hgt hi] at hv
      cases hv
  · exact .inr (hcut.same _ (.inl ho))

/-- The chain before one that is valid afterwards did not change. -/
theorem CutAt.same_before (hi : i + 1 < (chains o).length)
    (hv : (h'.cell ⟨o, i + 1⟩).valid = true) : h'.cell ⟨o, i⟩ = h.cell ⟨o, i⟩ := by
  by_cases ho : o = id.owner
  · subst ho
    refine hcut.same _ (.inr (Nat.lt_of_not_le fun hle => ?_))
    rw [hcut.dead (i + 1) (Nat.lt_succ_of_le hle) hi] at hv
    cases hv
  · exact hcut.same _ (.inl ho)

theorem HeapInv.cutAt (hinv : HeapInv chains sig h) : HeapInv chains sig h' where
  bound o := by
    rw [hcut.bound]
    exact hinv.bound o
  prev o i hi := by
    rw [(hcut.cut _).prev]
    exact hinv.prev o i hi
  next o i hi := by
    rcases (hcut.cut ⟨o, i⟩).next with heq | hnone
    · rw [heq]
      exact hinv.next o i hi
    · exact .inl hnone
  part o i c hc := (hcut.cut _).msgs.trans (hinv.part o i c hc)
  nonempty o i hi hv := by
    rcases hcut.live_cases hi hv with rfl | heq
    · exact (hcut.live hv).1
    · rw [heq] at hv ⊢
      exact hinv.nonempty o i hi hv
  gas o i hi hv := by
    rcases hcut.live_cases hi hv with rfl | heq
    · exact (hcut.live hv).2
    · rw [heq] at hv ⊢
      exact hinv.gas o i hi hv
  sigType o i hi := by
    rw [(hcut.cut _).sigType]
    exact hinv.sigType o i hi
  dep o i hi hv := by
    rw [hcut.same_before hi hv]
    exact hinv.dep o i hi ((hcut.cut _).valid hv)

end

namespace ChainHeapLemmas

@[simp] theorem set_here (h : Heap) (id : ChainId) (c : MsgChain) : (h.set id c).cell id = c :=
  if_pos rfl

theorem set_elsewhere (h : Heap) {id j : ChainId} (c : MsgChain) (hj : j ≠ id) :
    (h.set id c).cell j = h.cell j := if_neg hj

theorem set_index (h : Heap) {j : Nat} (c : MsgChain) (hj : j ≠ i) :
    (h.set ⟨o, i⟩ c).cell ⟨o, j⟩ = h.cell ⟨o, j⟩ :=
  set_elsewhere h c fun he => hj (ChainId.mk.inj he).2

/-! ### `Invalidate` -/

/-- The links of the chains of `o` from place `i` on: a valid chain is linked from
the one before it, which is valid too. -/
structure Linked (h : Heap) (o : Address) (n i : Nat) : Prop where
  next : ∀ j, i ≤ j → j < n → (h.cell ⟨o, j⟩).next = none ∨
    (h.cell ⟨o, j⟩).next = some ⟨o, j + 1⟩ ∧ j + 1 < n
  dep : ∀ j, i ≤ j → j + 1 < n → (h.cell ⟨o, j + 1⟩).valid = true →
    (h.cell ⟨o, j⟩).valid = true ∧ (h.cell ⟨o, j⟩).next = some ⟨o, j + 1⟩

theorem linked_of_inv (hinv : HeapInv chains sig h) (o : Address) (i : Nat) :
    Linked h o (chains o).length i where
  next j _ hj := hinv.next o j hj
  dep j _ hj hv := ⟨(hinv.dep o j hj hv).1, (hinv.dep o j hj hv).2.1⟩

variable {n : Nat}

/-- A write before place `i` does not touch the links from there on. -/
theorem Linked.set {k : Nat} (hl : Linked h o n k) (hk : k ≤ i + 1)
    (c : MsgChain) : Linked (h.set ⟨o, i⟩ c) o n (i + 1) := by
  have hcell : ∀ j, i + 1 ≤ j → (h.set ⟨o, i⟩ c).cell ⟨o, j⟩ = h.cell ⟨o, j⟩ :=
    fun j hj => set_index h c (ne_of_gt hj)
  refine ⟨fun j hj hn => ?_, fun j hj hn hv => ?_⟩
  · rw [hcell j hj]
    exact hl.next j (by omega) hn
  · rw [hcell j hj]
    rw [hcell (j + 1) (by omega)] at hv
    exact hl.dep j (by omega) hn hv

/-- Behind an invalid chain all are invalid. -/
theorem Linked.dead (hl : Linked h o n i)
    (hi : (h.cell ⟨o, i⟩).valid = false) : ∀ j, i ≤ j → j < n → (h.cell ⟨o, j⟩).valid = false := by
  intro j hij
  induction j, hij using Nat.le_induction with
  | base => exact fun _ => hi
  | succ j hij ih =>
    intro hj
    by_contra hv
    have hvj := (hl.dep j hij hj (by simpa using hv)).1
    rw [ih (by omega)] at hvj
    cases hvj

theorem Linked.dead_of_next (hl : Linked h o n i) (hnext : (h.cell ⟨o, i⟩).next = none) :
    ∀ j, i < j → j < n → (h.cell ⟨o, j⟩).valid = false := by
  intro j hij hj
  have hfirst : (h.cell ⟨o, i + 1⟩).valid = false := by
    by_contra hv
    have := (hl.dep i (le_refl i) (by omega) (by simpa using hv)).2
    rw [hnext] at this
    cases this
  have htail : Linked h o n (i + 1) :=
    ⟨fun k hk => hl.next k (by omega), fun k hk => hl.dep k (by omega)⟩
  exact htail.dead hfirst j hij hj

theorem cut_emptied (mc : MsgChain) : Cut mc (emptied mc) :=
  ⟨List.nil_prefix, rfl, .inl rfl, rfl, rfl, fun h => nomatch h⟩

theorem cut_next_none {c c' : MsgChain} (h : Cut c c') : Cut c { c' with next := none } :=
  { h with next := .inr rfl }

section

variable {c' : MsgChain} (hc : Cut (h.cell ⟨o, i⟩) c')
  (hlive : c'.valid = true → c'.msgs ≠ [] ∧ c'.gasLimit = gasOf c'.msgs)
  (hshort : (h.cell ⟨o, i⟩).msgs ≠ [] → c'.msgs.length < (h.cell ⟨o, i⟩).msgs.length)
include hc hlive hshort

/-- What a write to one chain changes when only chains behind it have changed, and they are all
invalid. -/
theorem cutAt_write {h₁ : Heap} (hbound : h₁.bound = h.bound)
    (hcut : ∀ j, j ≠ ⟨o, i⟩ → Cut (h.cell j) (h₁.cell j))
    (hsame : ∀ j : ChainId, j ≠ ⟨o, i⟩ → j.owner ≠ o ∨ j.index < i → h₁.cell j = h.cell j)
    (hdead : ∀ j, i < j → j < n → (h₁.cell ⟨o, j⟩).valid = false) :
    CutAt n h (h₁.set ⟨o, i⟩ c') ⟨o, i⟩ := by
  refine ⟨hbound, fun j => ?_, fun j hj => ?_, fun j hij hj => ?_, ?_, ?_⟩
  · by_cases hj : j = ⟨o, i⟩
    · subst hj
      rw [set_here]
      exact hc
    · rw [set_elsewhere h₁ c' hj]
      exact hcut j hj
  · have hne : j ≠ ⟨o, i⟩ := by
      rintro rfl
      rcases hj with hj | hj
      · exact hj rfl
      · exact lt_irrefl _ hj
    rw [set_elsewhere h₁ c' hne]
    exact hsame j hne hj
  · rw [set_index h₁ c' (ne_of_gt hij)]
    exact hdead j hij hj
  · rw [set_here]
    exact hlive
  · rw [set_here]
    exact hshort

/-- A write to a chain, the invalidation of the next one, and a last write to the
chain. -/
theorem cutAt_set_next {c₁ : MsgChain} {h₂ : Heap}
    (hrest : CutAt n (h.set ⟨o, i⟩ c₁) h₂ ⟨o, i + 1⟩)
    (hfirst : (h₂.cell ⟨o, i + 1⟩).valid = false) :
    CutAt n h (h₂.set ⟨o, i⟩ c') ⟨o, i⟩ := by
  refine cutAt_write hc hlive hshort hrest.bound (fun j hj => ?_) (fun j hne hj => ?_)
    (fun j hij hj => ?_)
  · rw [← set_elsewhere h c₁ hj]
    exact hrest.cut j
  · rw [hrest.same j (hj.imp_right Nat.lt_succ_of_lt), set_elsewhere h c₁ hne]
  · rcases Nat.eq_or_lt_of_le (Nat.succ_le_of_lt hij) with rfl | hlt
    · exact hfirst
    · exact hrest.dead j hlt hj

end

theorem invalidate_cutAt (fuel : Nat) (hl : Linked h o n i) (hi : i < n) (hfuel : n ≤ i + fuel) :
    CutAt n h (invalidate fuel h ⟨o, i⟩) ⟨o, i⟩ ∧
      ((invalidate fuel h ⟨o, i⟩).cell ⟨o, i⟩).valid = false := by
  induction fuel generalizing h i with
  | zero => omega
  | succ fuel ih =>
    have hshort : (h.cell ⟨o, i⟩).msgs ≠ [] →
        ([] : List SignedMessage).length < (h.cell ⟨o, i⟩).msgs.length := length_pos_iff.mpr
    unfold invalidate
    rcases hl.next i (le_refl i) hi with hnone | ⟨hsome, hlt⟩
    · dsimp only
      rw [hnone]
      refine ⟨cutAt_write (cut_emptied _) (fun h => nomatch h) hshort rfl (fun _ _ => .refl _)
        (fun _ _ _ => rfl) (hl.dead_of_next hnone), ?_⟩
      rw [set_here, emptied]
    · dsimp only
      rw [hsome]
      have htail := hl.set (Nat.le_succ i) (emptied (h.cell ⟨o, i⟩))
      obtain ⟨hrest, hfirst⟩ := ih htail hlt (by omega)
      refine ⟨cutAt_set_next (cut_next_none (cut_emptied _)) (fun h => nomatch h) hshort hrest
        hfirst, ?_⟩
      rw [set_here, emptied]

/-! ### `Trim` -/

/-- The chain with other numbers. -/
structure SameLinks (c c' : MsgChain) : Prop where
  msgs : c'.msgs = c.msgs
  prev : c'.prev = c.prev
  next : c'.next = c.next
  merged : c'.merged = c.merged
  sigType : c'.sigType = c.sigType
  valid : c'.valid = c.valid

section

variable (prev : Option MsgChain)

theorem setEffPerf_same (mc : MsgChain) :
    SameLinks mc (setEffPerf prev mc) ∧ (setEffPerf prev mc).gasLimit = mc.gasLimit := by
  unfold setEffPerf
  dsimp only
  split
  · exact ⟨⟨rfl, rfl, rfl, rfl, rfl, rfl⟩, rfl⟩
  · split <;> exact ⟨⟨rfl, rfl, rfl, rfl, rfl, rfl⟩, rfl⟩

theorem cutLast_same (baseFee : Int) (m : SignedMessage) (mc : MsgChain) :
    SameLinks mc (cutLast prev baseFee m mc) ∧
      (cutLast prev baseFee m mc).gasLimit = mc.gasLimit - m.message.gasLimit := by
  unfold cutLast
  dsimp only
  split
  · split
    · obtain ⟨hs, hg⟩ := setEffPerf_same prev { mc with
        gasReward := mc.gasReward - getGasReward m baseFee
        gasLimit := mc.gasLimit - m.message.gasLimit
        gasPerf := getGasPerf (mc.gasReward - getGasReward m baseFee)
          (mc.gasLimit - m.message.gasLimit) }
      exact ⟨{ hs with }, hg⟩
    · exact ⟨⟨rfl, rfl, rfl, rfl, rfl, rfl⟩, rfl⟩
  · exact ⟨⟨rfl, rfl, rfl, rfl, rfl, rfl⟩, rfl⟩

/-- The loop cuts messages off and takes their gas from the chain. -/
theorem trimLoop_spec (gasLimit msgLimit baseFee : Int) (l : List SignedMessage) (mc : MsgChain) :
    ∃ cut, l = cut ++ (trimLoop prev gasLimit msgLimit baseFee l mc).1 ∧
      SameLinks mc (trimLoop prev gasLimit msgLimit baseFee l mc).2 ∧
      (trimLoop prev gasLimit msgLimit baseFee l mc).2.gasLimit = mc.gasLimit - gasOf cut := by
  induction l generalizing mc with
  | nil => exact ⟨[], rfl, ⟨rfl, rfl, rfl, rfl, rfl, rfl⟩, by simp [trimLoop, gasOf]⟩
  | cons m before ih =>
    unfold trimLoop
    split
    · obtain ⟨cut, hcut, hs, hg⟩ := ih (cutLast prev baseFee m mc)
      obtain ⟨hs₁, hg₁⟩ := cutLast_same prev baseFee m mc
      refine ⟨m :: cut, congrArg (m :: ·) hcut, ?_, ?_⟩
      · exact ⟨hs.msgs.trans hs₁.msgs, hs.prev.trans hs₁.prev, hs.next.trans hs₁.next,
          hs.merged.trans hs₁.merged, hs.sigType.trans hs₁.sigType, hs.valid.trans hs₁.valid⟩
      · rw [hg, hg₁, gasOf, sub_sub]
    · exact ⟨[], rfl, ⟨rfl, rfl, rfl, rfl, rfl, rfl⟩, by simp [gasOf]⟩

theorem gasOf_reverse (l : List SignedMessage) : gasOf l.reverse = gasOf l := by
  induction l with
  | nil => rfl
  | cons m l ih => rw [reverse_cons, ChainsLemmas.gasOf_append, ih, gasOf, gasOf, gasOf]; omega

/-- A chain over a limit loses a message. -/
theorem trimLoop_shorter (gasLimit msgLimit baseFee : Int)
    {l : List SignedMessage} {mc : MsgChain} (hne : l ≠ [])
    (hover : mc.gasLimit > gasLimit ∨ (l.length : Int) > msgLimit) :
    (trimLoop prev gasLimit msgLimit baseFee l mc).1.length < l.length := by
  cases l with
  | nil => exact absurd rfl hne
  | cons m before =>
    have hcond : mc.gasLimit > gasLimit ∨ mc.gasPerf < 0 ∨ (before.length : Int) ≥ msgLimit := by
      rw [length_cons] at hover
      omega
    unfold trimLoop
    rw [if_pos hcond]
    obtain ⟨cut, hcut, -, -⟩ :=
      trimLoop_spec prev gasLimit msgLimit baseFee before (cutLast prev baseFee m mc)
    have hlen := congrArg List.length hcut
    rw [length_append] at hlen
    rw [length_cons]
    omega

end

theorem trim_cutAt (hinv : HeapInv chains sig h)
    (hi : i < (chains o).length) (hv : (h.cell ⟨o, i⟩).valid = true)
    {gasLimit msgLimit : Int} (baseFee : Int)
    (hover : (h.cell ⟨o, i⟩).gasLimit > gasLimit ∨ ((h.cell ⟨o, i⟩).msgs.length : Int) > msgLimit) :
    CutAt (chains o).length h (trim h ⟨o, i⟩ gasLimit msgLimit baseFee) ⟨o, i⟩ := by
  have hl := linked_of_inv hinv o i
  have hgas := hinv.gas o i hi hv
  have hne := hinv.nonempty o i hi hv
  obtain ⟨cut, hcut, hs, hg⟩ := trimLoop_spec ((h.cell ⟨o, i⟩).prev.map h.cell) gasLimit msgLimit
    baseFee (h.cell ⟨o, i⟩).msgs.reverse (h.cell ⟨o, i⟩)
  have hshorter := trimLoop_shorter ((h.cell ⟨o, i⟩).prev.map h.cell) gasLimit msgLimit baseFee
    (reverse_ne_nil_iff.mpr hne) (by rwa [length_reverse])
  unfold trim
  dsimp only
  generalize trimLoop _ _ _ _ _ _ = r at hcut hs hg hshorter ⊢
  have hmsgs : (h.cell ⟨o, i⟩).msgs = r.1.reverse ++ cut.reverse := by
    rw [← reverse_append, ← hcut, reverse_reverse]
  have hc : Cut (h.cell ⟨o, i⟩)
      { r.2 with msgs := r.1.reverse, valid := if r.1.isEmpty then false else r.2.valid } :=
    { hs with msgs := ⟨_, hmsgs.symm⟩, next := .inl hs.next, valid := fun _ => hv }
  have hlive : (if r.1.isEmpty then false else r.2.valid) = true →
      r.1.reverse ≠ [] ∧ r.2.gasLimit = gasOf r.1.reverse := by
    intro hvalid
    refine ⟨fun hnil => ?_, ?_⟩
    · rw [reverse_eq_nil_iff.mp hnil] at hvalid
      cases hvalid
    · rw [hg, hgas, hmsgs, ChainsLemmas.gasOf_append, gasOf_reverse cut]
      omega
  have hshort : (h.cell ⟨o, i⟩).msgs ≠ [] → r.1.reverse.length < (h.cell ⟨o, i⟩).msgs.length := by
    intro _
    rw [length_reverse] at hshorter ⊢
    exact hshorter
  rcases hl.next i (le_refl i) hi with hnone | ⟨hsome, hlt⟩
  · rw [hnone]
    exact cutAt_write hc hlive hshort rfl (fun _ _ => .refl _) (fun _ _ _ => rfl)
      (hl.dead_of_next hnone)
  · rw [hsome]
    have htail := hl.set (Nat.le_succ i)
      { r.2 with msgs := r.1.reverse, valid := if r.1.isEmpty then false else r.2.valid }
    have hbound := hinv.bound o
    obtain ⟨hrest, hfirst⟩ := invalidate_cutAt h.bound htail hlt (by omega)
    exact cutAt_set_next (cut_next_none hc) hlive hshort hrest hfirst

end ChainHeapLemmas

/-! ## The heap as it is built -/

/-- The messages of the chains of a sender. -/
def chainMsgs (gs : List ChainGroup) (o : Address) : List (List SignedMessage) :=
  (groupOf gs o).map MsgChain.msgs

/-- Chains of different senders as `createMessageChains` makes them, where the
messages of a sender have one signature type, BLS or secp256k1. -/
structure GroupsOk (gs : List ChainGroup) (sig : Address → SigType) : Prop where
  nodup : (gs.map ChainGroup.owner).Nodup
  spec : ∀ g ∈ gs, ∃ mset nonce, ChainsSpec g.owner mset nonce g.chains
  typed : ∀ g ∈ gs, ∀ c ∈ g.chains, ∀ m ∈ c.msgs, m.signature.type = sig g.owner
  known : ∀ g ∈ gs, sig g.owner = .bls ∨ sig g.owner = .secp256k1

section Groups

variable {gs : List ChainGroup}

theorem groupOf_cases (gs : List ChainGroup) (o : Address) :
    groupOf gs o = [] ∨ ∃ g ∈ gs, g.owner = o ∧ groupOf gs o = g.chains := by
  unfold groupOf
  cases hg : gs.find? fun g => g.owner = o with
  | none => exact .inl rfl
  | some g =>
    exact .inr ⟨g, mem_of_find?_eq_some hg, by simpa using find?_some hg, rfl⟩

theorem groupOf_of_mem (hok : GroupsOk gs sig) {g : ChainGroup} (hg : g ∈ gs) :
    groupOf gs g.owner = g.chains := by
  have hinj := inj_on_of_nodup_map hok.nodup
  unfold groupOf
  cases hf : gs.find? fun g' => g'.owner = g.owner with
  | none => simpa using find?_eq_none.mp hf g hg
  | some g' =>
    have howner : g'.owner = g.owner := by simpa using find?_some hf
    rw [hinj (mem_of_find?_eq_some hf) hg howner]
    rfl

theorem mem_chainIds (hok : GroupsOk gs sig) {id : ChainId} :
    id ∈ chainIds gs ↔ id.index < (chainMsgs gs id.owner).length := by
  unfold chainIds chainMsgs
  simp only [mem_flatMap, mem_map, mem_range, length_map]
  constructor
  · rintro ⟨g, hg, i, hi, rfl⟩
    rwa [groupOf_of_mem hok hg]
  · intro hi
    rcases groupOf_cases gs id.owner with hnil | ⟨g, hg, howner, heq⟩
    · rw [hnil] at hi
      cases hi
    · rw [heq] at hi
      exact ⟨g, hg, id.index, hi, by rw [howner]⟩

theorem chainIds_nodup (hok : GroupsOk gs sig) : (chainIds gs).Nodup := by
  refine nodup_flatMap.mpr ⟨fun g _ => ?_, ?_⟩
  · refine Nodup.map (fun i j h => ?_) nodup_range
    injection h
  · refine (pairwise_map.mp hok.nodup).imp fun {g g'} hne => ?_
    intro id hid hid'
    obtain ⟨i, -, rfl⟩ := mem_map.mp hid
    obtain ⟨j, -, hj⟩ := mem_map.mp hid'
    injection hj with howner
    exact hne howner.symm

theorem cell_ofGroups {c : MsgChain} (h : (groupOf gs o)[i]? = some c) :
    (Heap.ofGroups gs).cell ⟨o, i⟩ = c := by
  show (groupOf gs o)[i]?.getD noChain = c
  rw [h]
  rfl

/-- A chain of the heap is one of its sender's group. -/
theorem exists_chain (hok : GroupsOk gs sig) (hi : i < (chainMsgs gs o).length) :
    ∃ g ∈ gs, ∃ mset nonce c, g.owner = o ∧ groupOf gs o = g.chains ∧
      ChainsSpec g.owner mset nonce g.chains ∧ g.chains[i]? = some c ∧
      (Heap.ofGroups gs).cell ⟨o, i⟩ = c := by
  unfold chainMsgs at hi
  rw [length_map] at hi
  rcases groupOf_cases gs o with hnil | ⟨g, hg, howner, heq⟩
  · rw [hnil] at hi
    cases hi
  · obtain ⟨mset, nonce, hspec⟩ := hok.spec g hg
    have hc := getElem?_eq_getElem hi
    exact ⟨g, hg, mset, nonce, _, howner, heq, hspec, heq ▸ hc, cell_ofGroups hc⟩

theorem fresh_ofGroups (hok : GroupsOk gs sig) (hi : i < (chainMsgs gs o).length) :
    ((Heap.ofGroups gs).cell ⟨o, i⟩).Fresh := by
  obtain ⟨g, -, mset, nonce, c, -, -, hspec, hc, hcell⟩ := exists_chain hok hi
  rw [hcell]
  exact hspec.fresh c (mem_of_getElem? hc)

theorem length_chainMsgs : (chainMsgs gs o).length = (groupOf gs o).length := length_map _

theorem length_groupOf_le : (groupOf gs o).length ≤ (gs.flatMap ChainGroup.chains).length := by
  rcases groupOf_cases gs o with hnil | ⟨g, hg, -, heq⟩
  · rw [hnil]
    exact Nat.zero_le _
  · rw [heq]
    exact (sublist_flatten_of_mem (mem_map_of_mem hg)).length_le

theorem heapInv_ofGroups (hok : GroupsOk gs sig) :
    HeapInv (chainMsgs gs) sig (Heap.ofGroups gs) where
  bound o := by
    rw [length_chainMsgs]
    exact length_groupOf_le
  prev o i hi := by
    obtain ⟨g, -, mset, nonce, c, rfl, -, hspec, hc, hcell⟩ := exists_chain hok hi
    rw [hcell]
    exact hspec.prev i c hc
  next o i hi := by
    obtain ⟨g, -, mset, nonce, c, rfl, heq, hspec, hc, hcell⟩ := exists_chain hok hi
    rw [hcell, hspec.next i c hc, length_chainMsgs, heq]
    split
    · next hlt => exact .inr ⟨rfl, hlt⟩
    · exact .inl rfl
  part o i c hc := by
    unfold chainMsgs at hc
    rw [getElem?_map] at hc
    obtain ⟨d, hd, rfl⟩ := Option.map_eq_some_iff.mp hc
    rw [cell_ofGroups hd]
  nonempty o i hi _ := (fresh_ofGroups hok hi).nonempty
  gas o i hi _ := (fresh_ofGroups hok hi).gas
  sigType o i hi := by
    obtain ⟨g, hg, mset, nonce, c, rfl, -, hspec, hc, hcell⟩ := exists_chain hok hi
    have hmem : c ∈ g.chains := mem_of_getElem? hc
    obtain ⟨m, hm, hsig⟩ := (hspec.fresh c hmem).sigType
    rw [hcell, hsig]
    exact hok.typed g hg c hmem m hm
  dep o i hi _ := by
    obtain ⟨g, -, mset, nonce, c, rfl, heq, hspec, hc, hcell⟩ :=
      exists_chain hok (Nat.lt_of_succ_lt hi)
    have hlt : i + 1 < g.chains.length := by rwa [length_chainMsgs, heq] at hi
    refine ⟨(fresh_ofGroups hok (Nat.lt_of_succ_lt hi)).valid, ?_, ?_⟩
    · rw [hcell, hspec.next i c hc, if_pos hlt]
    · rw [hcell, chainMsgs, getElem?_map, heq, hc]
      rfl

end Groups

end OpenDsn.Mpool
