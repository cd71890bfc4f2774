import OpenDsn.Chain.Store
import OpenDsn.Lib.Table
import OpenDsn.Mpool.Message

/-!
# The slash filter

`chain/gen/slashfilter/slashfilter.go`: before a miner publishes a block, the filter
looks whether the block together with an earlier one would be a consensus fault. It
keeps the CIDs of the blocks it has let through, by miner and height and by miner and
parents.

`consensusFault` has the conditions under which two blocks are slashed
(`VerifyConsensusFault` in `chain/vm/syscalls.go`).

* `accepted_pairwise_clean`: of the blocks that the filter accepts, no two are a fault in
  the sense of its three checks;
* `no_consensusFault`: blocks that were accepted from lower to higher ones are not slashed,
  where the parents have one order.
-/

namespace OpenDsn.Mining

open Lib Chain Mpool

/-- The fields of a header that the filter reads. -/
structure MinedHeader where
  cid : BlockCid
  miner : Address
  height : Int
  parents : List BlockCid
deriving DecidableEq

/-! ## The filter -/

/-- The two datastores. Their keys are texts, of the miner and the height or the miner
and the parents. -/
structure SlashFilter where
  byEpoch : Table (Address × Int) BlockCid
  byParents : Table (Address × List BlockCid) BlockCid

def SlashFilter.new : SlashFilter := ⟨∅, ∅⟩

/-- "produced block would trigger '%s' consensus fault; miner: %s; bh: %s, other: %s" -/
inductive FilterError
  | doubleForkMining (miner : Address) (bh other : BlockCid)
  | timeOffsetMining (miner : Address) (bh other : BlockCid)
  | parentGrinding (miner : Address) (bh expectedParent : BlockCid)

/-- `build.Finality` -/
def finality : Int := 900

def isNearUpgrade (epoch upgradeEpoch : Int) : Bool :=
  epoch > upgradeEpoch - finality ∧ epoch < upgradeEpoch + finality

def checkFault {K : Type} [DecidableEq K] (t : Table K BlockCid) (key : K) (bh : MinedHeader)
    (faultType : Address → BlockCid → BlockCid → FilterError) : Except FilterError Unit :=
  match t.get? key with
  | none => .ok ()
  | some other => if other = bh.cid then .ok () else .error (faultType bh.miner bh.cid other)

/-- A block that was mined at the parent epoch has to be among the parents. -/
def checkParent (f : SlashFilter) (bh : MinedHeader) (parentEpoch : Int) :
    Except FilterError Unit :=
  match f.byEpoch.get? (bh.miner, parentEpoch) with
  | none => .ok ()
  | some parent =>
      if parent ∈ bh.parents then .ok () else .error (.parentGrinding bh.miner bh.cid parent)

/-- Both entries of a block. -/
def SlashFilter.put (f : SlashFilter) (bh : MinedHeader) : SlashFilter where
  byEpoch := f.byEpoch.insert (bh.miner, bh.height) bh.cid
  byParents := f.byParents.insert (bh.miner, bh.parents) bh.cid

/-- `MinedBlock`, with the height of the Orange upgrade. -/
def minedBlock (upgradeOrange : Int) (f : SlashFilter) (bh : MinedHeader) (parentEpoch : Int) :
    Except FilterError SlashFilter :=
  if isNearUpgrade bh.height upgradeOrange then .ok f
  else do
    checkFault f.byEpoch (bh.miner, bh.height) bh .doubleForkMining
    checkFault f.byParents (bh.miner, bh.parents) bh .timeOffsetMining
    checkParent f bh parentEpoch
    return f.put bh

/-- A call of `MinedBlock`. -/
structure MinedCall where
  bh : MinedHeader
  parentEpoch : Int
deriving DecidableEq

/-- The calls that return no error, in their order. An error leaves the filter as it is. -/
def accepted (upgradeOrange : Int) : SlashFilter → List MinedCall → List MinedCall
  | _, [] => []
  | f, call :: rest =>
      match minedBlock upgradeOrange f call.bh call.parentEpoch with
      | .error _ => accepted upgradeOrange f rest
      | .ok f => call :: accepted upgradeOrange f rest

/-- The calls with blocks outside the exempt range. -/
def notExempt (upgradeOrange : Int) (calls : List MinedCall) : List MinedCall :=
  calls.filter fun call => !isNearUpgrade call.bh.height upgradeOrange

/-- No fault of a block and a later one, in the sense of the filter: blocks of one miner
with the same height or the same parents are the same, and a block at the parent epoch is
among the parents. -/
structure Clean (earlier later : MinedCall) : Prop where
  height : earlier.bh.miner = later.bh.miner → earlier.bh.height = later.bh.height →
    earlier.bh.cid = later.bh.cid
  parents : earlier.bh.miner = later.bh.miner → earlier.bh.parents = later.bh.parents →
    earlier.bh.cid = later.bh.cid
  parentEpoch : earlier.bh.miner = later.bh.miner → earlier.bh.height = later.parentEpoch →
    earlier.bh.cid ∈ later.bh.parents

namespace SlashFilterLemmas

variable {upgradeOrange : Int} {f f' : SlashFilter} {bh : MinedHeader} {parentEpoch : Int}

variable (f bh) in
/-- The filter has both entries of the block. -/
structure Recorded : Prop where
  byEpoch : f.byEpoch.get? (bh.miner, bh.height) = some bh.cid
  byParents : f.byParents.get? (bh.miner, bh.parents) = some bh.cid

theorem checkFault_ok {K : Type} [DecidableEq K] {t : Table K BlockCid} {key : K}
    {faultType : Address → BlockCid → BlockCid → FilterError}
    (h : checkFault t key bh faultType = .ok ()) :
    t.get? key = none ∨ t.get? key = some bh.cid := by
  unfold checkFault at h
  split at h
  · next hnone => exact .inl hnone
  · next other hother =>
    split at h
    · next heq => exact .inr (by rw [hother, heq])
    · cases h

/-- What a block outside the exempt range has passed. -/
theorem minedBlock_ok (hnear : isNearUpgrade bh.height upgradeOrange = false)
    (h : minedBlock upgradeOrange f bh parentEpoch = .ok f') :
    checkFault f.byEpoch (bh.miner, bh.height) bh .doubleForkMining = .ok () ∧
      checkFault f.byParents (bh.miner, bh.parents) bh .timeOffsetMining = .ok () ∧
      checkParent f bh parentEpoch = .ok () ∧ f' = f.put bh := by
  unfold minedBlock at h
  rw [hnear] at h
  obtain ⟨⟨⟩, hfork, h⟩ := ok_of_bind h
  obtain ⟨⟨⟩, hoffset, h⟩ := ok_of_bind h
  obtain ⟨⟨⟩, hparent, h⟩ := ok_of_bind h
  exact ⟨hfork, hoffset, hparent, (Except.ok.inj h).symm⟩

theorem Recorded.put {other : MinedHeader} (h : Recorded f other)
    (hfork : checkFault f.byEpoch (bh.miner, bh.height) bh .doubleForkMining = .ok ())
    (hoffset : checkFault f.byParents (bh.miner, bh.parents) bh .timeOffsetMining = .ok ()) :
    Recorded (f.put bh) other := by
  have hkeep : ∀ {K : Type} [DecidableEq K] {t : Table K BlockCid} {key key' : K}
      {c : BlockCid}, t.get? key' = some c → (t.get? key = none ∨ t.get? key = some bh.cid) →
      (t.insert key bh.cid).get? key' = some c := by
    intro K _ t key key' c hget hkey
    rw [Table.get?_insert]
    split
    · next heq =>
      rw [heq] at hget
      rcases hkey with hkey | hkey
      · rw [hkey] at hget; cases hget
      · rw [← hkey, hget]
    · exact hget
  exact ⟨hkeep h.byEpoch (checkFault_ok hfork), hkeep h.byParents (checkFault_ok hoffset)⟩

theorem Recorded.minedBlock {other : MinedHeader} (h : Recorded f other)
    (hok : minedBlock upgradeOrange f bh parentEpoch = .ok f') : Recorded f' other := by
  cases hnear : isNearUpgrade bh.height upgradeOrange with
  | true =>
    unfold OpenDsn.Mining.minedBlock at hok
    rw [hnear] at hok
    cases hok
    exact h
  | false =>
    obtain ⟨hfork, hoffset, -, rfl⟩ := minedBlock_ok hnear hok
    exact h.put hfork hoffset

/-- A recorded block and a block that is accepted. -/
theorem clean_of_recorded {earlier later : MinedCall} (h : Recorded f earlier.bh)
    (hnear : isNearUpgrade later.bh.height upgradeOrange = false)
    (hok : minedBlock upgradeOrange f later.bh later.parentEpoch = .ok f') :
    Clean earlier later := by
  obtain ⟨hfork, hoffset, hparent, -⟩ := minedBlock_ok hnear hok
  have hsame : ∀ {o : Option BlockCid}, o = some earlier.bh.cid →
      (o = none ∨ o = some later.bh.cid) → earlier.bh.cid = later.bh.cid := by
    rintro o rfl (h | h)
    · cases h
    · exact Option.some.inj h
  refine ⟨fun hm hh => ?_, fun hm hp => ?_, fun hm hp => ?_⟩
  · exact hsame (by rw [← hm, ← hh]; exact h.byEpoch) (checkFault_ok hfork)
  · exact hsame (by rw [← hm, ← hp]; exact h.byParents) (checkFault_ok hoffset)
  · have hrecorded := h.byEpoch
    rw [hm, hp] at hrecorded
    unfold checkParent at hparent
    rw [hrecorded] at hparent
    dsimp only at hparent
    split at hparent
    · next hmem => exact hmem
    · cases hparent

theorem clean_of_accepted {earlier : MinedCall} {calls : List MinedCall}
    (h : Recorded f earlier.bh) : ∀ later ∈ accepted upgradeOrange f calls,
      isNearUpgrade later.bh.height upgradeOrange = false → Clean earlier later := by
  induction calls generalizing f with
  | nil => exact fun _ hmem => nomatch hmem
  | cons call rest ih =>
    unfold accepted
    split
    · exact ih h
    · next f' hok =>
      exact List.forall_mem_cons.mpr
        ⟨fun hnear => clean_of_recorded h hnear hok, ih (h.minedBlock hok)⟩

/-- Whatever the filter has recorded before. -/
theorem pairwise_clean (upgradeOrange : Int) (f : SlashFilter) (calls : List MinedCall) :
    (notExempt upgradeOrange (accepted upgradeOrange f calls)).Pairwise Clean := by
  induction calls generalizing f with
  | nil => exact .nil
  | cons call rest ih =>
    unfold accepted
    split
    · exact ih f
    · next f' hok =>
      unfold notExempt
      rw [List.filter_cons]
      split
      · next hnear =>
        have hnear : isNearUpgrade call.bh.height upgradeOrange = false := by simpa using hnear
        obtain ⟨-, -, -, rfl⟩ := minedBlock_ok hnear hok
        refine .cons (fun later hmem => ?_) (ih _)
        obtain ⟨hmem, hlater⟩ := List.mem_filter.mp hmem
        have hput : Recorded (f.put call.bh) call.bh := by
          constructor <;> exact (Table.get?_insert _).trans (if_pos rfl)
        exact clean_of_accepted hput later hmem (by simpa using hlater)
      · exact ih f'

end SlashFilterLemmas

open SlashFilterLemmas in
/-- For every sequence of calls of a new filter: of the blocks outside the exempt range
that it accepts, no earlier and later one are a fault. -/
theorem accepted_pairwise_clean (upgradeOrange : Int) (calls : List MinedCall) :
    (notExempt upgradeOrange (accepted upgradeOrange .new calls)).Pairwise Clean :=
  pairwise_clean upgradeOrange .new calls

/-- A block at the same height is rejected, the same block again is not. -/
example :
    let a : MinedCall := ⟨⟨1, .id 7, 2000, [0]⟩, 1999⟩
    let b : MinedCall := ⟨⟨2, .id 7, 2000, [9]⟩, 1999⟩
    accepted 0 .new [a, b, a] = [a, a] := by decide

/-! ## Slashing -/

inductive ConsensusFaultType
  | doubleForkMining
  | timeOffsetMining
  | parentGrinding

/-- The conditions of the three faults. A later one replaces the fault of an earlier one. -/
def faultOf (blockA blockB : MinedHeader) (extra : Option MinedHeader) :
    Option ConsensusFaultType :=
  let fork := if blockA.height = blockB.height then some .doubleForkMining else none
  let offset :=
    if cidArrsEqual blockA.parents blockB.parents ∧ blockA.height ≠ blockB.height then
      some .timeOffsetMining
    else fork
  match extra with
  | none => offset
  | some blockC =>
      if cidArrsEqual blockA.parents blockC.parents ∧ blockA.height = blockC.height ∧
          blockC.cid ∈ blockB.parents ∧ blockA.cid ∉ blockB.parents then
        some .parentGrinding
      else offset

/-- `VerifyConsensusFault` without the decoding and the signatures of the blocks; `none`
where it returns an error. -/
def consensusFault (upgradeOrange : Int) (blockA blockB : MinedHeader)
    (extra : Option MinedHeader) : Option ConsensusFaultType :=
  if isNearUpgrade blockA.height upgradeOrange ∨ isNearUpgrade blockB.height upgradeOrange then none
  else if blockA.cid = blockB.cid then none
  else if blockA.miner ≠ blockB.miner then none
  else if blockB.height < blockA.height then none
  else faultOf blockA blockB extra

/-- Parents are named in one order, and the blocks come from lower to higher ones. -/
structure InOrder (calls : List MinedCall) : Prop where
  parents : ∀ a ∈ calls, ∀ b ∈ calls, cidArrsEqual a.bh.parents b.bh.parents = true →
    a.bh.parents = b.bh.parents
  heights : calls.Pairwise fun a b => a.bh.height ≤ b.bh.height

/-- The parent epoch of the call is the height of the witness, if that is a parent. -/
def AtParentEpoch (b : MinedCall) (extra : Option MinedHeader) : Prop :=
  ∀ c, extra = some c → c.cid ∈ b.bh.parents → c.height = b.parentEpoch

theorem consensusFault_eq_none {upgradeOrange : Int} {a b : MinedHeader}
    {extra : Option MinedHeader}
    (h : a.cid ≠ b.cid → a.miner = b.miner → a.height ≤ b.height → faultOf a b extra = none) :
    consensusFault upgradeOrange a b extra = none := by
  unfold consensusFault
  split_ifs with hnear hcid hminer hlt
  · rfl
  · rfl
  · rfl
  · rfl
  · exact h hcid (not_not.mp hminer) (not_lt.mp hlt)

/-- Two blocks that were accepted in this order. -/
theorem faultOf_of_clean {a b : MinedCall} (h : Clean a b)
    (hparents : cidArrsEqual a.bh.parents b.bh.parents = true → a.bh.parents = b.bh.parents)
    {extra : Option MinedHeader} (hextra : AtParentEpoch b extra) (hcid : a.bh.cid ≠ b.bh.cid)
    (hminer : a.bh.miner = b.bh.miner) : faultOf a.bh b.bh extra = none := by
  have hheight : a.bh.height ≠ b.bh.height := fun heq => hcid (h.height hminer heq)
  have hequal : ¬ (cidArrsEqual a.bh.parents b.bh.parents = true ∧ a.bh.height ≠ b.bh.height) :=
    fun heq => hcid (h.parents hminer (hparents heq.1))
  unfold faultOf
  dsimp only
  rw [if_neg hheight, if_neg hequal]
  cases extra with
  | none => rfl
  | some c =>
    refine if_neg fun ⟨_, hc, hmem, hnot⟩ => hnot (h.parentEpoch hminer ?_)
    rw [hc, hextra c rfl hmem]

open SlashFilterLemmas in
/-- Blocks that were accepted in order are not slashed, whatever block is shown as the
witness. -/
theorem no_consensusFault {upgradeOrange : Int} {f : SlashFilter} {calls : List MinedCall}
    (hord : InOrder (notExempt upgradeOrange (accepted upgradeOrange f calls))) :
    ∀ a ∈ notExempt upgradeOrange (accepted upgradeOrange f calls),
    ∀ b ∈ notExempt upgradeOrange (accepted upgradeOrange f calls),
    ∀ extra, AtParentEpoch a extra → AtParentEpoch b extra →
      consensusFault upgradeOrange a.bh b.bh extra = none := by
  have hclean := pairwise_clean upgradeOrange f calls
  generalize notExempt upgradeOrange (accepted upgradeOrange f calls) = acc at hord hclean ⊢
  let R : MinedCall → MinedCall → Prop := fun a b =>
    ∀ extra, AtParentEpoch a extra → AtParentEpoch b extra →
      consensusFault upgradeOrange a.bh b.bh extra = none ∧
        consensusFault upgradeOrange b.bh a.bh extra = none
  have hpair : acc.Pairwise R := by
    refine (hclean.and hord.heights).imp_of_mem fun {a b} ha hb ⟨hc, hle⟩ extra _ hb' => ⟨?_, ?_⟩
    · exact consensusFault_eq_none fun hcid hminer _ =>
        faultOf_of_clean hc (hord.parents a ha b hb) hb' hcid hminer
    · -- shown the other way round, the blocks have one height, and then they are the same
      exact consensusFault_eq_none fun hcid hminer hge =>
        absurd (hc.height hminer.symm (le_antisymm hle hge)).symm hcid
  have hsame : ∀ a ∈ acc, R a a := fun a _ extra _ _ =>
    ⟨consensusFault_eq_none fun hcid => absurd rfl hcid,
      consensusFault_eq_none fun hcid => absurd rfl hcid⟩
  have hsymm : Std.Symm R := ⟨fun a b h extra ha hb => (h extra hb ha).symm⟩
  intro a ha b hb extra ha' hb'
  exact (hpair.forall_of_forall hsame ha hb extra ha' hb').1

/-- Two blocks of one miner, the second on the first. -/
theorem no_consensusFault_two :
    let a : MinedCall := ⟨⟨1, .id 7, 2000, [0]⟩, 1999⟩
    let b : MinedCall := ⟨⟨2, .id 7, 2001, [1]⟩, 2000⟩
    accepted 0 .new [a, b] = [a, b] ∧ consensusFault 0 a.bh b.bh (some a.bh) = none := by
  intro a b
  have hord : InOrder (notExempt 0 (accepted 0 .new [a, b])) := ⟨by decide, by decide⟩
  exact ⟨by decide, no_consensusFault hord a (by decide) b (by decide) _
    (fun | _, rfl => by decide) (fun | _, rfl => by decide)⟩

end OpenDsn.Mining
