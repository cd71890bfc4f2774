import Mathlib.Data.Prod.Lex
import OpenDsn.Mpool.ChainHeap

/-!
# Greedy selection

The part that `selectPriorityMessages` and `selectMessagesGreedy` share
(`chain/messagepool/selection.go`): the chains are sorted, taken from the best on
until one does not fit, and then the first one that does not fit is trimmed and
pushed down until the block is full or nothing is left. No chain is checked for
its predecessor: that the chains of a sender come in their order follows from
their performance, and trimming invalidates what follows.

* `selectGreedy_spec`: the selection ends, keeps the limits of the block, and
  takes of every sender the first messages of the chains.
-/

namespace OpenDsn.Mpool

open Lib Chain List

/-! ## The loops -/

/-- The merge loop: what was selected, and the chains from the first one on that
does not fit. -/
def mergeHead (h : Heap) : SelectedMessages → List ChainId → SelectedMessages × List ChainId
  | sm, [] => (sm, [])
  | sm, id :: rest =>
      -- did we run out of performing chains?
      if (h.cell id).gasPerf < 0 then (sm, [])
      else
        match tryToAdd sm (h.cell id) with
        | some sm' => mergeHead h sm' rest
        | none => (sm, id :: rest)

/-- The inner loop of the tail loop, which passes over invalid chains. -/
def packRest (h : Heap) : SelectedMessages → List ChainId → SelectedMessages × List ChainId
  | sm, [] => (sm, [])
  | sm, id :: rest =>
      if (h.cell id).valid = false then packRest h sm rest
      else if (h.cell id).gasPerf < 0 then (sm, [])
      else
        match tryToAdd sm (h.cell id) with
        | some sm' => packRest h sm' rest
        | none => (sm, id :: rest)

/-- A chain is moved behind the chains that it does not come before. -/
def pushDown (before : ChainId → ChainId → Bool) (id : ChainId) : List ChainId → List ChainId
  | [] => [id]
  | next :: rest =>
      if before id next then id :: next :: rest else next :: pushDown before id rest

/-- The tail loop over the chains from `last` on. -/
def tailLoop (baseFee : Int) :
    Nat → Heap → SelectedMessages → List ChainId → Option SelectedMessages
  | 0, _, _, _ => none
  | _ + 1, _, sm, [] => some sm
  | fuel + 1, h, sm, id :: rest =>
      if sm.gasLimit < minGas then some sm
      else
        let h' := trimChain h sm id baseFee
        let chains :=
          -- push down if it hasn't been invalidated
          if (h'.cell id).valid then
            pushDown (fun a b => (h'.cell a).before (h'.cell b)) id rest
          else id :: rest
        let r := packRest h' sm chains
        tailLoop baseFee fuel h' r.1 r.2

/-- Sorting, merging and tail packing. Every round of the tail loop cuts a message
off, so the number of messages bounds the rounds. -/
def selectGreedy (env : Env) (h : Heap) (ids : List ChainId) (sm : SelectedMessages)
    (baseFee : Int) : Option SelectedMessages :=
  match env.sorter.sort (fun a b => (h.cell a).before (h.cell b)) ids with
  | [] => some sm
  | best :: rest =>
      if (h.cell best).gasPerf < 0 then some sm
      else
        let r := mergeHead h sm (best :: rest)
        tailLoop baseFee (msgCount h (best :: rest) + 1) h r.1 r.2

/-! ## The limits of a block -/

/-- The number of messages with a type of signature. -/
def countType (t : SigType) (msgs : List SignedMessage) : Nat :=
  msgs.countP fun m => m.signature.type = t

/-- The selected messages keep the limits, and the counters say what is left. -/
structure Limits (sm : SelectedMessages) : Prop where
  gas : gasOf sm.msgs + sm.gasLimit = blockGasLimit
  gas_nonneg : 0 ≤ sm.gasLimit
  count : 0 ≤ sm.room
  bls : countType .bls sm.msgs + sm.blsLimit = maxLength
  bls_nonneg : 0 ≤ sm.blsLimit
  secp : countType .secp256k1 sm.msgs + sm.secpLimit = maxLength
  secp_nonneg : 0 ≤ sm.secpLimit

/-- The messages of a sender have one signature type, which has a limit. -/
def Typed (chains : Address → List (List SignedMessage)) (sig : Address → SigType) : Prop :=
  ∀ o, ∀ c ∈ chains o, (sig o = .bls ∨ sig o = .secp256k1) ∧ ∀ m ∈ c, m.signature.type = sig o

theorem typed_chainMsgs {gs : List ChainGroup} {sig : Address → SigType} (hok : GroupsOk gs sig) :
    Typed (chainMsgs gs) sig := by
  intro o c hc
  obtain ⟨d, hd, rfl⟩ := mem_map.mp hc
  rcases groupOf_cases gs o with hnil | ⟨g, hg, rfl, heq⟩
  · rw [hnil] at hd
    cases hd
  · rw [heq] at hd
    exact ⟨hok.known g hg, hok.typed g hg d hd⟩

namespace GreedyLemmas

open ChainHeapLemmas ChainsLemmas SelectedMessages

variable {chains : Address → List (List SignedMessage)} {sig : Address → SigType}
  {h h' : Heap} {sm sm' : SelectedMessages} {T : List (Piece Address SignedMessage)}
  {base : List SignedMessage} {id : ChainId} {R : List ChainId} {gs : List ChainGroup} {t : SigType}

theorem countType_append (l l' : List SignedMessage) :
    countType t (l ++ l') = countType t l + countType t l' := countP_append

theorem countType_same {l : List SignedMessage}
    (h : ∀ m ∈ l, m.signature.type = t) : countType t l = l.length :=
  countP_eq_length.mpr fun m hm => decide_eq_true (h m hm)

theorem countType_other {t' : SigType} (hne : t ≠ t') {l : List SignedMessage}
    (h : ∀ m ∈ l, m.signature.type = t) : countType t' l = 0 :=
  countP_eq_zero.mpr fun m hm => by simp [h m hm, hne]

/-- The limit of signature type `t'` after messages of type `t` went in. -/
theorem typeLimit_add {t' : SigType} {old new : List SignedMessage} {limit limit' : Int}
    (hnew : ∀ m ∈ new, m.signature.type = t) (hsum : countType t' old + limit = maxLength)
    (hpos : 0 ≤ limit) (hfit : t = t' → (new.length : Int) ≤ limit)
    (hlimit : limit' = if t = t' then limit - new.length else limit) :
    countType t' (old ++ new) + limit' = maxLength ∧ 0 ≤ limit' := by
  rw [countType_append, hlimit]
  split
  · next heq =>
    have hle := hfit heq
    rw [← heq, countType_same hnew]
    rw [← heq] at hsum
    omega
  · next hne =>
    rw [countType_other hne hnew]
    omega

/-- Messages of one signature type within the limits go into the block. -/
theorem limits_add {new : List SignedMessage} (hl : Limits sm)
    (hnew : ∀ m ∈ new, m.signature.type = t)
    (hgas : gasOf new ≤ sm.gasLimit) (hroom : (new.length : Int) ≤ sm.room)
    (hlimit : ∀ limit, sm.limitOf t = some limit → (new.length : Int) ≤ limit)
    (hmsgs : sm'.msgs = sm.msgs ++ new) (hgas' : sm'.gasLimit = sm.gasLimit - gasOf new)
    (hbls : sm'.blsLimit = if t = .bls then sm.blsLimit - new.length else sm.blsLimit)
    (hsecp : sm'.secpLimit = if t = .secp256k1 then sm.secpLimit - new.length else sm.secpLimit) :
    Limits sm' := by
  have hgasSum := hl.gas
  have hcount : 0 ≤ sm'.room := by
    unfold room at hroom ⊢
    rw [hmsgs, length_append]
    omega
  have hgas₁ : gasOf sm'.msgs + sm'.gasLimit = blockGasLimit := by
    rw [hmsgs, gasOf_append, hgas']
    omega
  obtain ⟨hbls₁, hbls₂⟩ := typeLimit_add hnew hl.bls hl.bls_nonneg
    (fun ht => hlimit sm.blsLimit (by rw [ht]; rfl)) hbls
  obtain ⟨hsecp₁, hsecp₂⟩ := typeLimit_add hnew hl.secp hl.secp_nonneg
    (fun ht => hlimit sm.secpLimit (by rw [ht]; rfl)) hsecp
  rw [← hmsgs] at hbls₁ hsecp₁
  exact ⟨hgas₁, by omega, hcount, hbls₁, hbls₂, hsecp₁, hsecp₂⟩

theorem tryToAdd_limits {mc : MsgChain} (hl : Limits sm) (hadd : tryToAdd sm mc = some sm')
    (ht : mc.sigType = .bls ∨ mc.sigType = .secp256k1)
    (hnew : ∀ m ∈ mc.msgs, m.signature.type = mc.sigType) (hgas : mc.gasLimit = gasOf mc.msgs) :
    Limits sm' ∧ sm'.msgs = sm.msgs ++ mc.msgs := by
  unfold tryToAdd at hadd
  dsimp only at hadd
  split at hadd
  · cases hadd
  next hfit =>
  -- both types with a limit take the same steps, each with its own limit
  rcases ht with htype | htype <;> rw [htype] at hadd hnew <;> dsimp only at hadd
  all_goals
    split at hadd
    · cases hadd
    next hlimit =>
    cases hadd
    refine ⟨limits_add hl hnew (by omega) (by omega) (fun limit hlim => ?_) rfl
      (by rw [← hgas]) rfl rfl, rfl⟩
    cases hlim
    omega

/-- A chain that cannot be added is over one of the limits, so it is trimmed. -/
theorem over_of_none {mc : MsgChain} (hnone : tryToAdd sm mc = none) :
    mc.gasLimit > sm.gasLimit ∨ (mc.msgs.length : Int) > sm.msgLimit mc.sigType := by
  unfold msgLimit limitOf
  unfold tryToAdd at hnone
  dsimp only at hnone
  split at hnone
  · next hlim =>
    rcases hlim with hroom | hgas
    · right
      cases mc.sigType <;> dsimp only
      case other => exact hroom
      all_goals split <;> omega
    · exact .inl hgas
  · right
    cases htype : mc.sigType <;> rw [htype] at hnone <;> dsimp only at hnone ⊢
    case other => cases hnone
    all_goals
      split at hnone
      · split <;> omega
      · cases hnone

theorem trimChain_cutAt (hinv : HeapInv chains sig h) (hi : id.index < (chains id.owner).length)
    (hv : (h.cell id).valid = true) (baseFee : Int) (hnone : tryToAdd sm (h.cell id) = none) :
    CutAt (chains id.owner).length h (trimChain h sm id baseFee) id := by
  have hover := over_of_none hnone
  unfold trimChain
  rw [if_pos hover]
  exact trim_cutAt hinv hi hv baseFee hover

/-! ## The queue -/

variable (chains) in
variable (T) in
/-- The chain before `id` is in `front` or was taken in full. -/
def Follows (front : List ChainId) (id : ChainId) : Prop :=
  0 < id.index → ⟨id.owner, id.index - 1⟩ ∈ front ∨
    ∃ c, (chains id.owner)[id.index - 1]? = some c ∧ ⟨id.owner, id.index - 1, c⟩ ∈ T

theorem Follows.mono {U : List (Piece Address SignedMessage)} {front front' : List ChainId}
    (hf : Follows chains T front id) (hT : ∀ p ∈ T, p ∈ U) (hfront : ∀ j ∈ front, j ∈ front') :
    Follows chains U front' id := by
  intro hpos
  rcases hf hpos with hmem | ⟨c, hc, hmem⟩
  · exact .inl (hfront _ hmem)
  · exact .inr ⟨c, hc, hT _ hmem⟩

variable (chains sig) in
variable (h T R) in
/-- The chains `R` are still to be looked at, after the pieces `T` were taken: a
valid chain stands behind the one it follows. -/
structure QueueInv :
    Prop where
  heap : HeapInv chains sig h
  taken : Taken chains T
  nodup : R.Nodup
  inRange : ∀ id ∈ R, id.index < (chains id.owner).length
  untaken : ∀ id ∈ R, ∀ p ∈ T, p.owner = id.owner → p.index ≠ id.index
  ordered : ∀ front id back, R = front ++ id :: back → (h.cell id).valid = true →
    Follows chains T front id

theorem QueueInv.nil (hq : QueueInv chains sig h T R) : QueueInv chains sig h T [] where
  __ := hq
  nodup := .nil
  inRange _ hid := nomatch hid
  untaken _ hid := nomatch hid
  ordered front _ _ hR := by cases front <;> cases hR

/-- A chain behind the first one does not follow an invalid first one. -/
theorem follows_of_dead {front : List ChainId} {x : ChainId}
    (hf : Follows chains T (id :: front) x) (hdead : x.owner = id.owner → x.index ≠ id.index + 1) :
    Follows chains T front x := by
  intro hpos
  rcases hf hpos with hmem | hmem
  · rcases mem_cons.mp hmem with rfl | hmem
    · exact absurd (Nat.succ_pred_eq_of_pos hpos).symm (hdead rfl)
    · exact .inl hmem
  · exact .inr hmem

section

variable (hq : QueueInv chains sig h T (id :: R))
include hq

theorem QueueInv.drop (hv : (h.cell id).valid = false) : QueueInv chains sig h T R where
  __ := hq
  nodup := hq.nodup.of_cons
  inRange x hx := hq.inRange x (mem_cons_of_mem _ hx)
  untaken x hx := hq.untaken x (mem_cons_of_mem _ hx)
  ordered front x back hR hx := by
    refine follows_of_dead (hq.ordered (id :: front) x back (by rw [hR]; rfl) hx) ?_
    intro howner hindex
    have hx' : x = ⟨id.owner, id.index + 1⟩ := by rw [← howner, ← hindex]
    have hr := hq.inRange x (by simp [hR])
    rw [hx'] at hr hx
    have := (hq.heap.dep id.owner id.index hr hx).1
    rw [hv] at this
    cases this

/-- What makes a valid chain at the head of the queue ready to be taken. -/
theorem QueueInv.deps (hv : (h.cell id).valid = true) :
    ∀ j < id.index, ∀ c, (chains id.owner)[j]? = some c → ⟨id.owner, j, c⟩ ∈ T := by
  intro j hj c hc
  rcases hq.ordered [] id R rfl hv (Nat.zero_lt_of_lt hj) with hmem | ⟨d, hd, hmem⟩
  · cases hmem
  · rcases Nat.eq_or_lt_of_le (Nat.le_pred_of_lt hj) with rfl | hlt
    · rw [show (chains id.owner)[id.index.pred]? = some d from hd] at hc
      cases hc
      exact hmem
    · exact hq.taken.deps_of_mem hmem j hlt c hc

theorem QueueInv.take (hv : (h.cell id).valid = true) :
    QueueInv chains sig h (T ++ [⟨id.owner, id.index, (h.cell id).msgs⟩]) R where
  heap := hq.heap
  taken := by
    have hr := hq.inRange id mem_cons_self
    have hc := getElem?_eq_getElem hr
    exact .snoc hq.taken (hq.untaken id mem_cons_self) hc (hq.heap.part _ _ _ hc) (hq.deps hv)
  nodup := hq.nodup.of_cons
  inRange x hx := hq.inRange x (mem_cons_of_mem _ hx)
  untaken x hx p hp howner := by
    rcases mem_append.mp hp with hp | hp
    · exact hq.untaken x (mem_cons_of_mem _ hx) p hp howner
    · obtain rfl := mem_singleton.mp hp
      rintro hindex
      have hid : id = x := by
        cases id
        cases x
        exact congrArg₂ ChainId.mk howner hindex
      exact (nodup_cons.mp hq.nodup).1 (hid ▸ hx)
  ordered front x back hR hx hpos := by
    have hf := hq.ordered (id :: front) x back (by rw [hR]; rfl) hx hpos
    rcases hf with hmem | ⟨c, hc, hmem⟩
    · rcases mem_cons.mp hmem with hid | hmem
      · -- the chain that follows is valid, so this one was taken in full
        right
        have hx' : x = ⟨id.owner, id.index + 1⟩ := by
          rw [← hid]
          rw [Nat.sub_add_cancel hpos]
        have hr := hq.inRange x (by simp [hR])
        rw [hx'] at hr hx ⊢
        exact ⟨_, (hq.heap.dep id.owner id.index hr hx).2.2, by simp⟩
      · exact .inl hmem
    · exact .inr ⟨c, hc, mem_append_left _ hmem⟩

end

/-- The head of the queue is cut and moved to another place. -/
theorem QueueInv.cut {A B : List ChainId} (hq : QueueInv chains sig h T (id :: (A ++ B)))
    (hv : (h.cell id).valid = true) (hcut : CutAt (chains id.owner).length h h' id) :
    QueueInv chains sig h' T (A ++ id :: B) := by
  have hperm : (A ++ id :: B).Perm (id :: (A ++ B)) := perm_middle
  have hmem : ∀ x, x ∈ A ++ id :: B ↔ x ∈ id :: (A ++ B) := fun x => hperm.mem_iff
  -- the order of the other chains: none of them follows the cut one any more
  have hrest : ∀ front x back, A ++ B = front ++ x :: back → (h'.cell x).valid = true →
      Follows chains T front x := by
    intro front x back hR hx
    have hx₀ := (hcut.cut x).valid hx
    refine follows_of_dead (hq.ordered (id :: front) x back (by rw [hR]; rfl) hx₀) ?_
    intro howner hindex
    have hx' : x = ⟨id.owner, id.index + 1⟩ := by rw [← howner, ← hindex]
    have hr := hq.inRange x (by rw [hR]; simp)
    rw [hx'] at hr hx
    rw [hcut.dead (id.index + 1) (Nat.lt_succ_self _) hr] at hx
    cases hx
  refine ⟨hq.heap.cutAt hcut, hq.taken, hperm.nodup_iff.mpr hq.nodup,
    fun x hx => hq.inRange x ((hmem x).mp hx), fun x hx => hq.untaken x ((hmem x).mp hx), ?_⟩
  intro front x back hR hx
  rcases append_eq_append_iff.mp hR with ⟨mid, rfl, htail⟩ | ⟨mid, rfl, htail⟩
  · cases mid with
    | nil =>
      cases htail
      have hhead := hq.ordered [] id (A ++ B) rfl hv
      exact hhead.mono (fun _ h => h) (fun _ h => nomatch h)
    | cons y mid =>
      obtain ⟨rfl, hB⟩ := List.cons.inj htail
      refine (hrest (A ++ mid) x back (by rw [hB]; simp) hx).mono (fun _ h => h) ?_
      intro j hj
      rcases mem_append.mp hj with hj | hj <;> simp [hj]
  · cases mid with
    | nil =>
      cases htail
      have hhead := hq.ordered [] id _ rfl hv
      exact hhead.mono (fun _ h => h) (fun _ h => nomatch h)
    | cons y mid =>
      obtain ⟨rfl, htail⟩ := List.cons.inj htail
      exact hrest front x (mid ++ B) (by simp) hx

/-! ## The loops take pieces in order -/

/-- The messages selected so far are `base` and the pieces `T`, within the limits. -/
structure SelInv (base : List SignedMessage) (sm : SelectedMessages)
    (T : List (Piece Address SignedMessage)) : Prop where
  limits : Limits sm
  msgs : sm.msgs = base ++ itemsOf T

/-- The messages of a chain have the signature type of their sender. -/
theorem chain_typed (ht : Typed chains sig) (hinv : HeapInv chains sig h)
    (hi : id.index < (chains id.owner).length) :
    ((h.cell id).sigType = .bls ∨ (h.cell id).sigType = .secp256k1) ∧
      ∀ m ∈ (h.cell id).msgs, m.signature.type = (h.cell id).sigType := by
  have hc := getElem?_eq_getElem hi
  obtain ⟨hknown, hmsgs⟩ := ht id.owner _ (mem_of_getElem? hc)
  have hsig : (h.cell id).sigType = sig id.owner := hinv.sigType id.owner id.index hi
  rw [hsig]
  exact ⟨hknown, fun m hm => hmsgs m ((hinv.part id.owner id.index _ hc).subset hm)⟩

theorem SelInv.take (ht : Typed chains sig) (hs : SelInv base sm T) (hinv : HeapInv chains sig h)
    (hi : id.index < (chains id.owner).length) (hv : (h.cell id).valid = true)
    (hadd : tryToAdd sm (h.cell id) = some sm') :
    SelInv base sm' (T ++ [⟨id.owner, id.index, (h.cell id).msgs⟩]) := by
  obtain ⟨hknown, hmsgs⟩ := chain_typed ht hinv hi
  obtain ⟨hlimits, heq⟩ := tryToAdd_limits hs.limits hadd hknown hmsgs
    (hinv.gas id.owner id.index hi hv)
  refine ⟨hlimits, ?_⟩
  rw [heq, hs.msgs, itemsOf_append, itemsOf_singleton, append_assoc]

variable (h sm) in
/-- The first chain of the queue is valid and does not fit. -/
def Stuck : List ChainId → Prop
  | [] => True
  | id :: _ => (h.cell id).valid = true ∧ tryToAdd sm (h.cell id) = none

variable (chains sig) in
/-- Where a loop over the queue `R` ends: some pieces more are taken and the rest
of the queue, which is not longer, starts with a chain that does not fit. -/
structure LoopEnd (base : List SignedMessage) (h : Heap) (R : List ChainId)
    (r : SelectedMessages × List ChainId) : Prop where
  taken : ∃ T, SelInv base r.1 T ∧ QueueInv chains sig h T r.2
  stuck : Stuck h r.1 r.2
  count : msgCount h r.2 ≤ msgCount h R

theorem LoopEnd.cons {r : SelectedMessages × List ChainId} (he : LoopEnd chains sig base h R r)
    (id : ChainId) : LoopEnd chains sig base h (id :: R) r :=
  ⟨he.taken, he.stuck, he.count.trans (Nat.le_add_left _ _)⟩

theorem packRest_end (ht : Typed chains sig) (hs : SelInv base sm T)
    (hq : QueueInv chains sig h T R) : LoopEnd chains sig base h R (packRest h sm R) := by
  induction R generalizing sm T with
  | nil => exact ⟨⟨T, hs, hq⟩, trivial, Nat.le_refl _⟩
  | cons id R ih =>
    unfold packRest
    split
    · next hv => exact (ih hs (hq.drop hv)).cons id
    next hv =>
    have hv : (h.cell id).valid = true := by simpa using hv
    split
    · exact ⟨⟨T, hs, hq.nil⟩, trivial, Nat.zero_le _⟩
    · cases hadd : tryToAdd sm (h.cell id) with
      | none => exact ⟨⟨T, hs, hq⟩, ⟨hv, hadd⟩, Nat.le_refl _⟩
      | some sm' =>
        have hs' := hs.take ht hq.heap (hq.inRange id mem_cons_self) hv hadd
        exact (ih hs' (hq.take hv)).cons id

/-- Valid chains are merged as the inner loop of the tail loop packs them. -/
theorem mergeHead_eq (sm : SelectedMessages) (hvalid : ∀ id ∈ R, (h.cell id).valid = true) :
    mergeHead h sm R = packRest h sm R := by
  induction R generalizing sm with
  | nil => rfl
  | cons id R ih =>
    obtain ⟨hv, hrest⟩ := forall_mem_cons.mp hvalid
    have hskip : ¬ (h.cell id).valid = false := by
      rw [hv]
      nofun
    unfold mergeHead packRest
    simp only [ih _ hrest, if_neg hskip]

theorem pushDown_eq (before : ChainId → ChainId → Bool) (l : List ChainId) :
    ∃ A B, l = A ++ B ∧ pushDown before id l = A ++ id :: B := by
  induction l with
  | nil => exact ⟨[], [], rfl, rfl⟩
  | cons next l ih =>
    unfold pushDown
    split
    · exact ⟨[], next :: l, rfl, rfl⟩
    · obtain ⟨A, B, rfl, heq⟩ := ih
      exact ⟨next :: A, B, rfl, congrArg (next :: ·) heq⟩

/-- Pushed down or left in front, the chain has a place among the others. -/
theorem replaced_eq (before : ChainId → ChainId → Bool) (v : Bool) (id : ChainId)
    (l : List ChainId) :
    ∃ A B, l = A ++ B ∧ (if v then pushDown before id l else id :: l) = A ++ id :: B := by
  split
  · exact pushDown_eq before l
  · exact ⟨[], l, rfl, rfl⟩

/-! ### The number of messages left -/

theorem msgCount_append (h : Heap) (l l' : List ChainId) :
    msgCount h (l ++ l') = msgCount h l + msgCount h l' := by
  induction l with
  | nil => simp [msgCount]
  | cons d l ih => rw [cons_append, msgCount, msgCount, ih, add_assoc]

theorem msgCount_le_of_cut (hcut : ∀ j, Cut (h.cell j) (h'.cell j)) (l : List ChainId) :
    msgCount h' l ≤ msgCount h l := by
  induction l with
  | nil => exact le_refl _
  | cons d l ih => exact Nat.add_le_add (hcut d).msgs.length_le ih

/-- After a chain of a list was cut, the list has fewer messages. -/
theorem msgCount_lt_of_cutAt {n : Nat} (hcut : CutAt n h h' id) (hne : (h.cell id).msgs ≠ [])
    (A B : List ChainId) : msgCount h' (A ++ id :: B) < msgCount h (A ++ id :: B) := by
  have hA := msgCount_le_of_cut hcut.cut A
  have hB := msgCount_le_of_cut hcut.cut B
  have hid := hcut.shorter hne
  simp only [msgCount_append, msgCount]
  omega

/-- The tail loop ends and takes pieces in order. -/
theorem tailLoop_spec (ht : Typed chains sig) (baseFee : Int) {fuel : Nat} (hs : SelInv base sm T)
    (hq : QueueInv chains sig h T R) (hstuck : Stuck h sm R) (hfuel : msgCount h R < fuel) :
    ∃ sm' U, tailLoop baseFee fuel h sm R = some sm' ∧ SelInv base sm' U ∧ Taken chains U := by
  induction fuel generalizing h sm T R with
  | zero => omega
  | succ fuel ih =>
    cases R with
    | nil => exact ⟨sm, T, rfl, hs, hq.taken⟩
    | cons id R =>
      obtain ⟨hv, hnone⟩ := hstuck
      unfold tailLoop
      split
      · exact ⟨sm, T, rfl, hs, hq.taken⟩
      · dsimp only
        have hr := hq.inRange id mem_cons_self
        have hcut := trimChain_cutAt hq.heap hr hv baseFee hnone
        have hne : (h.cell id).msgs ≠ [] := hq.heap.nonempty id.owner id.index hr hv
        generalize trimChain h sm id baseFee = h' at hcut ⊢
        obtain ⟨A, B, hR, hchains⟩ := replaced_eq
          (fun a b => (h'.cell a).before (h'.cell b)) (h'.cell id).valid id R
        rw [hchains]
        subst hR
        have hend := packRest_end ht hs (hq.cut hv hcut)
        obtain ⟨⟨U, hs', hq'⟩, hstuck', hcount⟩ := hend
        refine ih hs' hq' hstuck' (hcount.trans_lt ?_)
        have hless := msgCount_lt_of_cutAt hcut hne A B
        simp only [msgCount_append, msgCount] at hless hfuel ⊢
        omega

/-! ## Sorting -/

/-- Chains are sorted by their performance, and then by their reward, from the best on. -/
def perfKey (c : MsgChain) : ℚᵒᵈ ×ₗ ℤᵒᵈ :=
  toLex (OrderDual.toDual c.gasPerf, OrderDual.toDual c.gasReward)

theorem before_iff (a b : MsgChain) : a.before b = true ↔ perfKey a < perfKey b := by
  unfold MsgChain.before perfKey
  rw [Prod.Lex.toLex_lt_toLex]
  simp

/-- A chain performs better than the next one of its sender. -/
theorem before_next (hok : GroupsOk gs sig) {o : Address} {i : Nat}
    (hi : i + 1 < (groupOf gs o).length) :
    ((Heap.ofGroups gs).cell ⟨o, i⟩).before ((Heap.ofGroups gs).cell ⟨o, i + 1⟩) = true := by
  rcases groupOf_cases gs o with hnil | ⟨g, hg, -, hgroup⟩
  · rw [hnil] at hi
    cases hi
  · obtain ⟨mset, nonce, hspec⟩ := hok.spec g hg
    have hlt : i < (groupOf gs o).length := Nat.lt_of_succ_lt hi
    have hperf := hspec.perf
    rw [← hgroup] at hperf
    have hless := pairwise_iff_getElem.mp hperf i (i + 1) hlt hi (Nat.lt_succ_self i)
    rw [cell_ofGroups (getElem?_eq_getElem hlt), cell_ofGroups (getElem?_eq_getElem hi)]
    unfold MsgChain.before
    simp [hless]

/-- The chains of a sender come in their order when they are sorted. -/
theorem queueInv_sorted (hok : GroupsOk gs sig) (hperm : R.Perm (chainIds gs))
    (hsorted : R.Pairwise fun a b =>
      ((Heap.ofGroups gs).cell b).before ((Heap.ofGroups gs).cell a) = false) :
    QueueInv (chainMsgs gs) sig (Heap.ofGroups gs) [] R := by
  have hmem : ∀ id, id ∈ R ↔ id.index < (chainMsgs gs id.owner).length :=
    fun id => hperm.mem_iff.trans (mem_chainIds hok)
  refine ⟨heapInv_ofGroups hok, .nil, hperm.nodup_iff.mpr (chainIds_nodup hok),
    fun id => (hmem id).mp, fun _ _ p hp => absurd hp not_mem_nil, ?_⟩
  rintro front ⟨o, i⟩ back hR _ hpos
  left
  obtain ⟨i, rfl⟩ := Nat.exists_eq_succ_of_ne_zero (ne_of_gt hpos)
  have hi : i + 1 < (groupOf gs o).length := by
    have := (hmem ⟨o, i + 1⟩).mp (by simp [hR])
    rwa [chainMsgs, length_map] at this
  have hprev : (⟨o, i⟩ : ChainId) ∈ R := by
    refine (hmem _).mpr ?_
    rw [chainMsgs, length_map]
    exact Nat.lt_of_succ_lt hi
  rw [hR] at hprev
  rcases mem_append.mp hprev with hfront | hback
  · exact hfront
  rcases mem_cons.mp hback with heq | hback
  · exact absurd (congrArg ChainId.index heq) (ne_of_lt (Nat.lt_succ_self i))
  -- behind the next one it would not perform better, but it does
  rw [hR] at hsorted
  have hle := (pairwise_cons.mp (pairwise_append.mp hsorted).2.1).1 _ hback
  rw [before_next hok hi] at hle
  cases hle

end GreedyLemmas

open GreedyLemmas in
/-- Greedy selection from the chains of `gs` ends, adds to the messages selected
before within the limits of the block, and takes pieces of the chains in order. -/
theorem selectGreedy_spec {gs : List ChainGroup} {sig : Address → SigType} (hok : GroupsOk gs sig)
    (env : Env) {sm : SelectedMessages} (hl : Limits sm) (baseFee : Int) :
    ∃ sm' T, selectGreedy env (Heap.ofGroups gs) (chainIds gs) sm baseFee = some sm' ∧
      Limits sm' ∧ sm'.msgs = sm.msgs ++ itemsOf T ∧ Taken (chainMsgs gs) T := by
  have ht := typed_chainMsgs hok
  have hs : SelInv sm.msgs sm [] := ⟨hl, by simp⟩
  have hperm := env.sorter.perm
    (fun a b => ((Heap.ofGroups gs).cell a).before ((Heap.ofGroups gs).cell b)) (chainIds gs)
  have hq := queueInv_sorted hok hperm
    (env.sorter.sorted (chainIds gs) (.of_key fun _ _ => before_iff _ _))
  unfold selectGreedy
  generalize env.sorter.sort _ (chainIds gs) = R at hperm hq ⊢
  cases R with
  | nil => exact ⟨sm, [], rfl, hl, by simp, .nil⟩
  | cons best rest =>
    dsimp only
    split
    · exact ⟨sm, [], rfl, hl, by simp, .nil⟩
    · have hvalid : ∀ id ∈ best :: rest, ((Heap.ofGroups gs).cell id).valid = true :=
        fun id hid => (fresh_ofGroups hok ((mem_chainIds hok).mp (hperm.mem_iff.mp hid))).valid
      rw [mergeHead_eq sm hvalid]
      obtain ⟨⟨T, hs', hq'⟩, hstuck, hcount⟩ := packRest_end ht hs hq
      obtain ⟨sm', U, hrun, hsel, htaken⟩ :=
        tailLoop_spec ht baseFee hs' hq' hstuck (Nat.lt_succ_of_le hcount)
      exact ⟨sm', U, hrun, hsel.limits, hsel.msgs, htaken⟩

end OpenDsn.Mpool
