import OpenDsn.Lib.Except
import OpenDsn.Lib.RunLength
import OpenDsn.Lib.Table

/-!
# A cycle of WindowPoSt

`storage/wdpost/wdpost_run.go`, `runPoStCycle` from the batches on, with `batchPartitions`,
`checkSectors` and `sectorsForProof`: the partitions of a deadline are proven in batches. A batch
is tried until its proof is generated and verified; the sectors that a failed try names are
skipped by the next one. A sector that is not good is replaced by a good one in the proof.

The chain's answers, the checks of the sectors and the prover are given by `Attempt`, one for
every round of the retry loop.

* `post_cycle_proves`: in a cycle that returns, the indexes of the partitions increase and are
  their positions in the deadline, what is skipped is what was to prove and was not proven, and
  the sectors that were proven stand at the positions of the partition's sectors.
-/

namespace OpenDsn.Wdpost

open Lib Lib.Runs List

/-- `bitfield.BitField`. -/
abbrev BitField := List Run

/-- `api.Partition`: live are the sectors of the partition that are not terminated, recovering
some of the faulty ones. -/
structure Partition where
  allSectors : BitField
  faultySectors : BitField
  recoveringSectors : BitField
  liveSectors : BitField
  live_sub : ∀ n, covers liveSectors n = true → covers allSectors n = true
  recovering_sub : ∀ n, covers recoveringSectors n = true → covers allSectors n = true

structure SectorOnChainInfo where
  sectorNumber : Nat
  sealedCID : Nat
  sealProof : Nat
  sectorKeyCID : Option Nat

/-- `proof.ExtendedSectorInfo`. -/
structure ExtendedSectorInfo where
  sectorNumber : Nat
  sealedCID : Nat
  sealProof : Nat
  sectorKey : Option Nat

def SectorOnChainInfo.extended (info : SectorOnChainInfo) : ExtendedSectorInfo :=
  ⟨info.sectorNumber, info.sealedCID, info.sealProof, info.sectorKeyCID⟩

/-- The sectors on chain. -/
structure SectorTable where
  info : Nat → SectorOnChainInfo
  number : ∀ n, (info n).sectorNumber = n

/-- `StateMinerSectors`: the infos of the sectors of a bit field, in some order. -/
def stateMinerSectors (table : SectorTable) (order : Arrangement) (filter : BitField) :
    List SectorOnChainInfo :=
  order.arrange ((members filter).map table.info)

inductive PostError
  | maxPoStPartitions
  | declarationsMax
  /-- No partition fits in a message, and the source divides by zero. -/
  | divideByZero
  | stateMinerSectors
  | checkProvable
  | noProofs
  | randomness
  | generateWindowPoSt
  | cancelled
  /-- The answers end before the cycle does. -/
  | unanswered

/-- The answers about one partition in one round. -/
structure Check where
  /-- `StateMinerSectors` in `checkSectors`. -/
  sectors : Option Arrangement
  /-- The sectors that `CheckProvable` finds bad. -/
  bad : Option (List Nat)
  /-- `StateMinerSectors` in `sectorsForProof`. -/
  goodSectors : Option Arrangement

/-- What comes of `GenerateWindowPoSt`. -/
inductive Answer
  /-- Proofs, the randomness at the head of then, and what `VerifyWindowPoSt` finds. -/
  | generated (postOut : List Nat) (checkRand : Option Nat) (correct : Option Bool)
  /-- A failure with the sectors it names, and whether the context is cancelled by then. -/
  | failed (ps : List Nat) (cancelled : Bool)

/-- The sectors that an answer names. -/
def Answer.skipped : Answer → List Nat
  | .generated .. => []
  | .failed ps _ => ps

/-- One round of the retry loop; the checks by the positions of the partitions. -/
structure Attempt where
  checks : Nat → Check
  answer : Answer

/-- The settings of a cycle. -/
structure PostConfig where
  /-- `GetMaxPoStPartitions` -/
  maxPoStPartitions : Option Nat
  /-- `GetDeclarationsMax` -/
  declMax : Option Nat
  maxPartitionsPerPostMessage : Int
  disablePreChecks : Bool
  manual : Bool
  /-- `di.Index` -/
  deadline : Nat

/-- `miner.PoStPartition`. -/
structure PoStPartition where
  index : Nat
  skipped : BitField

/-- `SubmitWindowedPoStParams`. -/
structure PostParams where
  deadline : Nat
  partitions : List PoStPartition
  proofs : List Nat

/-! ## Batches -/

def partitionsPerMsg (cfg : PostConfig) : Except PostError Nat :=
  match cfg.maxPoStPartitions, cfg.declMax with
  | none, _ => .error .maxPoStPartitions
  | some _, none => .error .declarationsMax
  | some maxPost, some declMax =>
      let n := if maxPost > declMax then declMax else maxPost
      if cfg.maxPartitionsPerPostMessage > 0 ∧ (n : Int) > cfg.maxPartitionsPerPostMessage then
        .ok cfg.maxPartitionsPerPostMessage.toNat
      else .ok n

/-- The loop of `batchPartitions`. -/
def batchesOf (n : Nat) : Nat → List Partition → List (List Partition)
  | 0, _ => []
  | _ + 1, [] => []
  | fuel + 1, p :: ps => (p :: ps).take n :: batchesOf n fuel ((p :: ps).drop n)

def batchPartitions (cfg : PostConfig) (partitions : List Partition) :
    Except PostError (List (List Partition)) := do
  let n ← partitionsPerMsg cfg
  if n = 0 then .error .divideByZero else .ok (batchesOf n partitions.length partitions)

/-! ## The sectors of a partition -/

section

variable [BitFields]

def sectorsToProve (manual : Bool) (p : Partition) : BitField :=
  let toProve := if manual then p.liveSectors else diff p.liveSectors p.faultySectors
  union toProve p.recoveringSectors

/-- `checkSectors` with the sectors found bad. -/
def checkSectors (table : SectorTable) (order : Arrangement) (check : BitField) (bad : List Nat) :
    BitField :=
  let sectors : Table Nat SectorOnChainInfo := (stateMinerSectors table order check).foldl
    (fun sectors info => sectors.insert info.sectorNumber info) ∅
  (sectors.eraseAll bad).keys.foldl set []

def sectorsForProof (sset : List SectorOnChainInfo) (allSectors : BitField) :
    List ExtendedSectorInfo :=
  match sset with
  | [] => []
  | first :: _ =>
      let substitute := first.extended
      let sectorByID : Table Nat ExtendedSectorInfo := sset.foldl
        (fun sectors info => sectors.insert info.sectorNumber info.extended) ∅
      (members allSectors).map fun sectorNo => (sectorByID.get? sectorNo).getD substitute

section Cycle

variable (cfg : PostConfig) (table : SectorTable)

/-- The sectors to prove that pass the checks. -/
def checkedSectors (check : Check) (toProve : BitField) : Except PostError BitField :=
  if cfg.disablePreChecks then .ok toProve
  else
    match check.sectors, check.bad with
    | none, _ => .error .stateMinerSectors
    | some _, none => .error .checkProvable
    | some order, some bad => .ok (checkSectors table order toProve bad)

/-- One round of the loop over the partitions of a batch. -/
def provePartition (postSkipped : BitField) (index : Nat) (check : Check) (p : Partition) :
    Except PostError (Option (PoStPartition × List ExtendedSectorInfo)) := do
  let toProve := sectorsToProve cfg.manual p
  let checked ← checkedSectors cfg table check toProve
  let good := diff checked postSkipped
  let skipped := diff toProve good
  match check.goodSectors with
  | none => .error .stateMinerSectors
  | some order =>
      let ssi := sectorsForProof (stateMinerSectors table order good) p.allSectors
      .ok (if ssi.length = 0 then none else some (⟨index, skipped⟩, ssi))

/-- The loop over the partitions of a batch, from the position `index` on. The result are the
entries of `partitions`, each with those of `xsinfos` that were appended with it. -/
def provePartitions (postSkipped : BitField) (checks : Nat → Check) :
    Nat → List Partition → Except PostError (List (PoStPartition × List ExtendedSectorInfo))
  | _, [] => .ok []
  | index, p :: ps => do
      let proven ← provePartition cfg table postSkipped index (checks index) p
      let rest ← provePartitions postSkipped checks (index + 1) ps
      .ok (proven.toList ++ rest)

/-- What comes of a batch: the params, unless there is nothing to prove, the randomness for the
batches that follow, and the sectors of each call of `GenerateWindowPoSt`. -/
structure BatchResult where
  params : Option PostParams
  rand : Nat
  calls : List (List ExtendedSectorInfo)

/-- The retry loop, with the calls of the prover so far. -/
def proveBatch (start : Nat) (batch : List Partition) :
    List Attempt → Nat → BitField → List (List ExtendedSectorInfo) → Except PostError BatchResult
  | [], _, _, _ => .error .unanswered
  | attempt :: attempts, rand, postSkipped, calls =>
      match provePartitions cfg table postSkipped attempt.checks start batch with
      | .error e => .error e
      | .ok proven =>
          let xsinfos := proven.flatMap Prod.snd
          if xsinfos.length = 0 then .ok ⟨none, rand, calls⟩
          else
            let calls := calls ++ [xsinfos]
            match attempt.answer with
            | .generated postOut checkRand correct =>
                if postOut.length = 0 then .error .noProofs
                else
                  match checkRand with
                  | none => .error .randomness
                  | some checkRand =>
                      if checkRand ≠ rand then
                        proveBatch start batch attempts checkRand postSkipped calls
                      else if correct = some true then
                        .ok ⟨some ⟨cfg.deadline, proven.map Prod.fst, postOut⟩, rand, calls⟩
                      else proveBatch start batch attempts rand postSkipped calls
            | .failed ps cancelled =>
                if ps.length = 0 then .error .generateWindowPoSt
                else if cancelled then .error .cancelled
                else proveBatch start batch attempts rand (ps.foldl set postSkipped) calls

/-- The loop over the batches; `before` are the batches that are done. The rounds of each batch
are a list of their own, and so are the calls of the prover. -/
def proveBatches (before : List (List Partition)) :
    List (List Partition) → List (List Attempt) → Nat →
      Except PostError (List PostParams × List (List (List ExtendedSectorInfo)))
  | [], _, _ => .ok ([], [])
  | batch :: batches, attempts, rand => do
      let batchPartitionStartIdx := (before.map List.length).sum
      let result ←
        proveBatch cfg table batchPartitionStartIdx batch (attempts.headD []) rand [] []
      let (posts, calls) ← proveBatches (before ++ [batch]) batches attempts.tail result.rand
      .ok (result.params.toList ++ posts, result.calls :: calls)

/-- `runPoStCycle`, once it has the randomness and the partitions of the deadline: the params, and
the sectors of the prover calls of each batch. -/
def runPoStCycle (partitions : List Partition) (attempts : List (List Attempt)) (rand : Nat) :
    Except PostError (List PostParams × List (List (List ExtendedSectorInfo))) := do
  let partitionBatches ← batchPartitions cfg partitions
  proveBatches cfg table [] partitionBatches attempts rand

end Cycle

/-! ## What is to prove, what is good, what was proven -/

/-- The sectors to prove: the live ones without the faulty, and the recovering. -/
def ToProve (manual : Bool) (p : Partition) (n : Nat) : Prop :=
  covers p.liveSectors n = true ∧ (manual = true ∨ covers p.faultySectors n = false) ∨
    covers p.recoveringSectors n = true

/-- A sector to prove is good in a round if the checks of the round find it so and no round
before named it. -/
def Good (cfg : PostConfig) (before : List Attempt) (check : Check) (p : Partition) (n : Nat) :
    Prop :=
  ToProve cfg.manual p n ∧ (cfg.disablePreChecks = true ∨ ∃ bad, check.bad = some bad ∧ n ∉ bad) ∧
    ∀ a ∈ before, n ∉ a.answer.skipped

/-- The sectors of a partition as they are proven in a round. -/
structure Proves (cfg : PostConfig) (table : SectorTable) (before : List Attempt) (check : Check)
    (p : Partition) (pp : PoStPartition) (proven : List ExtendedSectorInfo) : Prop where
  skipped : ∀ n, covers pp.skipped n = true ↔
    ToProve cfg.manual p n ∧ n ∉ proven.map ExtendedSectorInfo.sectorNumber
  sectors : List.Forall₂
    (fun n info => (Good cfg before check p n → info = (table.info n).extended) ∧
      (¬Good cfg before check p n → ∃ m, Good cfg before check p m ∧
        covers p.allSectors m = true ∧ info = (table.info m).extended))
    (members p.allSectors) proven

/-- The params are those of the round of batch `j` whose proofs were accepted: its prover call, the
last one, got the sectors of the partitions one after the other. `n` partitions are in a batch, and
`partition` has the one of a position. -/
def ProvenBy (cfg : PostConfig) (table : SectorTable) (partition : Nat → Option Partition)
    (n j : Nat) (rounds : List Attempt) (calls : List (List ExtendedSectorInfo))
    (params : PostParams) : Prop :=
  ∃ before a after rand, ∃ proven : List (PoStPartition × List ExtendedSectorInfo),
    rounds = before ++ a :: after ∧
    a.answer = .generated params.proofs (some rand) (some true) ∧
    calls.length = before.length + 1 ∧ calls.getLast? = some (proven.flatMap Prod.snd) ∧
    params.partitions = proven.map Prod.fst ∧
    ∀ e ∈ proven, e.1.index / n = j ∧ ∃ p, partition e.1.index = some p ∧
      Proves cfg table before (a.checks e.1.index) p e.1 e.2

namespace CycleLemmas

variable {cfg : PostConfig} {table : SectorTable} {order : Arrangement} {p : Partition} {n : Nat}

theorem covers_sectorsToProve {manual : Bool} (n : Nat) :
    covers (sectorsToProve manual p) n = true ↔ ToProve manual p n := by
  unfold sectorsToProve ToProve
  cases manual with
  | true => simp [covers_union]
  | false => simp [covers_union, covers_diff]

omit [BitFields] in
/-- What is to prove are sectors of the partition. -/
theorem covers_of_toProve {manual : Bool} (h : ToProve manual p n) :
    covers p.allSectors n = true := by
  rcases h with ⟨hlive, -⟩ | hrecovering
  · exact p.live_sub n hlive
  · exact p.recovering_sub n hrecovering

omit [BitFields] in
theorem mem_stateMinerSectors {filter : BitField} {info : SectorOnChainInfo} :
    info ∈ stateMinerSectors table order filter ↔
      ∃ n, covers filter n = true ∧ table.info n = info := by
  unfold stateMinerSectors
  rw [(order.perm _).mem_iff, mem_map]
  exact exists_congr fun n => and_congr_left fun _ => mem_members

omit [BitFields] in
/-- A map of infos by their numbers has those of the sectors that were asked for. -/
theorem get?_infos {ν : Type} (val : SectorOnChainInfo → ν) (filter : BitField) (n : Nat) :
    Table.get? ((stateMinerSectors table order filter).foldl
      (fun sectors info => sectors.insert info.sectorNumber (val info)) (∅ : Table Nat ν)) n =
        if covers filter n = true then some (val (table.info n)) else none := by
  split
  · next hcovers =>
    refine Table.get?_foldl_insert_of_mem (mem_stateMinerSectors.mpr ⟨n, hcovers, rfl⟩)
      (table.number n) fun info hinfo hnumber => ?_
    obtain ⟨m, -, rfl⟩ := mem_stateMinerSectors.mp hinfo
    rw [table.number] at hnumber
    rw [hnumber]
  · next hcovers =>
    rw [Table.get?_foldl_insert_of_forall_ne]
    · rfl
    · intro info hinfo hnumber
      obtain ⟨m, hm, rfl⟩ := mem_stateMinerSectors.mp hinfo
      rw [table.number] at hnumber
      exact hcovers (hnumber ▸ hm)

theorem covers_checkSectors (check : BitField) (bad : List Nat) (n : Nat) :
    covers (checkSectors table order check bad) n = true ↔ covers check n = true ∧ n ∉ bad := by
  have hget : Table.get? ((stateMinerSectors table order check).foldl
      (fun sectors info => sectors.insert info.sectorNumber info)
        (∅ : Table Nat SectorOnChainInfo)) n =
          if covers check n = true then some (table.info n) else none := get?_infos id check n
  unfold checkSectors
  rw [covers_foldl_set, Bool.or_eq_true, decide_eq_true_iff, Table.mem_keys_iff]
  simp only [Table.get?_eraseAll]
  rw [hget]
  by_cases hbad : n ∈ bad <;> by_cases hcheck : covers check n = true <;>
    simp [hbad, hcheck, covers]

omit [BitFields] in
/-- The sectors for the proof of a partition, with the good sector that replaces the others. -/
theorem sectorsForProof_eq {good allSectors : BitField}
    (h : sectorsForProof (stateMinerSectors table order good) allSectors ≠ []) :
    ∃ m, covers good m = true ∧
      sectorsForProof (stateMinerSectors table order good) allSectors =
        (members allSectors).map fun n =>
          (table.info (if covers good n = true then n else m)).extended := by
  unfold sectorsForProof at h ⊢
  split at h
  · exact absurd rfl h
  · next first rest hsset =>
    have hfirst : first ∈ stateMinerSectors table order good := by
      rw [hsset]
      exact mem_cons_self
    obtain ⟨m, hm, rfl⟩ := mem_stateMinerSectors.mp hfirst
    refine ⟨m, hm, ?_⟩
    rw [hsset]
    rw [← hsset]
    refine map_congr_left fun n _ => ?_
    rw [get?_infos SectorOnChainInfo.extended]
    split
    · rfl
    · rfl

variable {postSkipped : BitField} {before : List Attempt} {attempts : List (List Attempt)}
  {check : Check}

variable (postSkipped before) in
/-- `postSkipped` has the sectors that the rounds before named. -/
def SkippedBy : Prop :=
  ∀ n, covers postSkipped n = true ↔ ∃ a ∈ before, n ∈ a.answer.skipped

theorem covers_checkedSectors {toProve checked : BitField}
    (h : checkedSectors cfg table check toProve = .ok checked) (n : Nat) :
    covers checked n = true ↔ covers toProve n = true ∧
      (cfg.disablePreChecks = true ∨ ∃ bad, check.bad = some bad ∧ n ∉ bad) := by
  unfold checkedSectors at h
  split at h
  · next hdisable =>
    cases h
    exact ⟨fun hn => ⟨hn, .inl hdisable⟩, And.left⟩
  · next hdisable =>
    split at h
    · cases h
    · cases h
    · next order bad _ hbad =>
      cases h
      rw [covers_checkSectors]
      refine and_congr_right fun _ => ⟨fun hn => .inr ⟨bad, hbad, hn⟩, ?_⟩
      rintro (hd | ⟨bad', hbad', hn⟩)
      · exact absurd hd hdisable
      · cases hbad.symm.trans hbad'
        exact hn

theorem covers_good {checked : BitField} (hskip : SkippedBy postSkipped before)
    (h : checkedSectors cfg table check (sectorsToProve cfg.manual p) = .ok checked) (n : Nat) :
    covers (diff checked postSkipped) n = true ↔ Good cfg before check p n := by
  unfold Good
  rw [covers_diff, Bool.and_eq_true, Bool.not_eq_true', covers_checkedSectors h,
    covers_sectorsToProve, and_assoc, ← Bool.not_eq_true, hskip n]
  simp

/-- The sectors handed to the prover for a partition. -/
theorem proves_of_sectors {good : BitField} {m index : Nat}
    (hgood : ∀ n, covers good n = true ↔ Good cfg before check p n) (hm : covers good m = true) :
    Proves cfg table before check p ⟨index, diff (sectorsToProve cfg.manual p) good⟩
      ((members p.allSectors).map fun n =>
        (table.info (if covers good n = true then n else m)).extended) where
  skipped n := by
    have hproven : n ∈ ((members p.allSectors).map fun n =>
        (table.info (if covers good n = true then n else m)).extended).map
          ExtendedSectorInfo.sectorNumber ↔ covers good n = true := by
      rw [map_map, mem_map]
      constructor
      · rintro ⟨n', -, hnumber⟩
        have hn : (if covers good n' = true then n' else m) = n :=
          (table.number _).symm.trans hnumber
        rw [← hn]
        split
        · next hn' => exact hn'
        · exact hm
      · intro hn
        refine ⟨n, mem_members.mpr (covers_of_toProve ((hgood n).mp hn).1), ?_⟩
        show (table.info (if covers good n = true then n else m)).sectorNumber = n
        rw [if_pos hn, table.number]
    rw [hproven, covers_diff, Bool.and_eq_true, Bool.not_eq_true', covers_sectorsToProve,
      Bool.not_eq_true]
  sectors := by
    rw [List.forall₂_map_right_iff, List.forall₂_same]
    intro n _
    refine ⟨fun hn => by rw [if_pos ((hgood n).mpr hn)], fun hn => ?_⟩
    refine ⟨m, (hgood m).mp hm, covers_of_toProve ((hgood m).mp hm).1, ?_⟩
    rw [if_neg fun hc => hn ((hgood n).mp hc)]

section

variable (hskip : SkippedBy postSkipped before)
include hskip

theorem provePartition_spec {index : Nat} {e : PoStPartition × List ExtendedSectorInfo}
    (h : provePartition cfg table postSkipped index check p = .ok (some e)) :
    e.1.index = index ∧ Proves cfg table before check p e.1 e.2 := by
  obtain ⟨checked, hchecked, h⟩ := ok_of_bind h
  split at h
  · cases h
  next order horder =>
  have h := Except.ok.inj h
  split at h
  · cases h
  next hne =>
  cases h
  have hsectors := mt length_eq_zero_iff.mpr hne
  obtain ⟨m, hm, heq⟩ := sectorsForProof_eq hsectors
  rw [heq]
  exact ⟨rfl, proves_of_sectors (covers_good hskip hchecked) hm⟩

/-- The partitions of a batch keep their order and their positions. -/
theorem provePartitions_spec {checks : Nat → Check} {index : Nat} {ps : List Partition}
    {es : List (PoStPartition × List ExtendedSectorInfo)}
    (h : provePartitions cfg table postSkipped checks index ps = .ok es) :
    es.Pairwise (fun a b => a.1.index < b.1.index) ∧ ∀ e ∈ es, index ≤ e.1.index ∧
      ∃ p, ps[e.1.index - index]? = some p ∧
        Proves cfg table before (checks e.1.index) p e.1 e.2 := by
  induction ps generalizing index es with
  | nil =>
    cases h
    exact ⟨.nil, fun _ he => nomatch he⟩
  | cons p ps ih =>
    obtain ⟨proven, hproven, h⟩ := ok_of_bind h
    obtain ⟨rest, hrest, h⟩ := ok_of_bind h
    cases h
    obtain ⟨hsorted, hall⟩ := ih hrest
    have hrest' : ∀ e ∈ rest, index ≤ e.1.index ∧ ∃ q, (p :: ps)[e.1.index - index]? = some q ∧
        Proves cfg table before (checks e.1.index) q e.1 e.2 := by
      intro e he
      obtain ⟨hle, q, hq, hproves⟩ := hall e he
      have hsub : e.1.index - index = e.1.index - (index + 1) + 1 := by omega
      refine ⟨Nat.le_of_succ_le hle, q, ?_, hproves⟩
      rw [hsub, getElem?_cons_succ]
      exact hq
    cases proven with
    | none => exact ⟨hsorted, hrest'⟩
    | some e =>
      obtain ⟨hindex, hproves⟩ := provePartition_spec hskip hproven
      refine ⟨pairwise_cons.mpr ⟨fun e' he' => ?_, hsorted⟩, ?_⟩
      · rw [hindex]
        exact (hall e' he').1
      · refine forall_mem_cons.mpr ⟨⟨le_of_eq hindex.symm, p, ?_, ?_⟩, hrest'⟩
        · rw [hindex, Nat.sub_self, getElem?_cons_zero]
        · rw [hindex]
          exact hproves

theorem skippedBy_snoc {a : Attempt} :
    SkippedBy (a.answer.skipped.foldl set postSkipped) (before ++ [a]) := by
  intro n
  rw [covers_foldl_set, Bool.or_eq_true, hskip n, decide_eq_true_iff]
  simp [or_and_right, exists_or]

/-- The params of a batch come from the round of it whose proofs were accepted. -/
theorem proveBatch_spec {start rand : Nat} {batch : List Partition} {params : PostParams}
    {attempts : List Attempt} {calls : List (List ExtendedSectorInfo)} {result : BatchResult}
    (hcalls : calls.length = before.length)
    (h : proveBatch cfg table start batch attempts rand postSkipped calls = .ok result)
    (hparams : result.params = some params) :
    ∃ before' a after postSkipped' rand' proven, before ++ attempts = before' ++ a :: after ∧
      SkippedBy postSkipped' before' ∧
      a.answer = .generated params.proofs (some rand') (some true) ∧
      (result.calls.length = before'.length + 1 ∧
        result.calls.getLast? = some (proven.flatMap Prod.snd)) ∧
      params.partitions = proven.map Prod.fst ∧
      provePartitions cfg table postSkipped' a.checks start batch = .ok proven := by
  induction attempts generalizing rand postSkipped before calls with
  | nil => cases h
  | cons a attempts ih =>
    -- a round that is tried again has named its sectors and called the prover
    have hsnoc := skippedBy_snoc (a := a) hskip
    have hcalls' : ∀ xs, (calls ++ [xs]).length = (before ++ [a]).length := by
      simp [hcalls]
    rw [append_cons]
    unfold proveBatch at h
    split at h
    · cases h
    next proven hproven =>
    dsimp only at h
    split at h
    · cases h
      cases hparams
    split at h
    · next postOut checkRand correct hanswer =>
      rw [hanswer] at hsnoc
      split at h
      · cases h
      split at h
      · cases h
      next checkRand =>
      split at h
      · exact ih hsnoc (hcalls' _) h
      · split at h
        · next hcorrect =>
          cases h
          cases hparams
          rw [hcorrect] at hanswer
          refine ⟨before, a, attempts, postSkipped, checkRand, proven, (append_cons ..).symm, hskip,
            hanswer, ⟨?_, getLast?_concat⟩, rfl, hproven⟩
          rw [length_append, length_singleton, hcalls]
        · exact ih hsnoc (hcalls' _) h
    · next ps cancelled hanswer =>
      rw [hanswer] at hsnoc
      split at h
      · cases h
      split at h
      · cases h
      · exact ih hsnoc (hcalls' _) h

end

/-- All batches but the last have `n` partitions. -/
def Full (n : Nat) : List (List Partition) → Prop
  | [] => True
  | b :: bs => b.length ≤ n ∧ (bs ≠ [] → b.length = n) ∧ Full n bs

omit [BitFields] in
theorem batchesOf_spec (hn : 0 < n) {fuel : Nat} {ps : List Partition} (hfuel : ps.length ≤ fuel) :
    (batchesOf n fuel ps).flatten = ps ∧ Full n (batchesOf n fuel ps) := by
  induction fuel generalizing ps with
  | zero =>
    rw [length_eq_zero_iff.mp (Nat.le_zero.mp hfuel)]
    exact ⟨rfl, trivial⟩
  | succ fuel ih =>
    cases ps with
    | nil => exact ⟨rfl, trivial⟩
    | cons p ps =>
      have hdrop : ((p :: ps).drop n).length ≤ fuel := by
        rw [length_drop]
        omega
      obtain ⟨hflat, hfull⟩ := ih hdrop
      unfold batchesOf
      refine ⟨?_, ?_, fun hmore => ?_, hfull⟩
      · rw [flatten_cons, hflat, take_append_drop]
      · exact length_take_le n _
      · -- there is another batch, so the partitions go on after this one
        rw [length_take, min_eq_left]
        by_contra hlt
        have hnil : (p :: ps).drop n = [] := drop_eq_nil_of_le (Nat.le_of_not_le hlt)
        rw [hnil] at hmore
        cases fuel with
        | zero | succ fuel => exact hmore rfl

variable {calls : List (List (List ExtendedSectorInfo))} {params : PostParams}
  {k : Nat} {b ps : List Partition}

variable (cfg table) in
/-- Some params after `k` batches: the batch they are of. -/
def Accounted (n k : Nat) (ps : List Partition) (attempts : List (List Attempt))
    (calls : List (List (List ExtendedSectorInfo))) (params : PostParams) : Prop :=
  ∃ j rounds handed, k ≤ j ∧ attempts[j - k]? = some rounds ∧ calls[j - k]? = some handed ∧
    ProvenBy cfg table (fun i => ps[i - k * n]?) n j rounds handed params

omit [BitFields] in
theorem Accounted.le_index (hn : 0 < n)
    (h : Accounted cfg table n k ps attempts calls params) :
    ∀ pp ∈ params.partitions, k * n ≤ pp.index := by
  obtain ⟨j, rounds, handed, hkj, -, -, before, a, after, rand, proven, -, -, -, -, hpartitions,
    hall⟩ := h
  rw [hpartitions]
  refine forall_mem_map.mpr fun e he => (Nat.le_div_iff_mul_le hn).mp ?_
  rw [(hall e he).1]
  exact hkj

theorem accounted_of_batch {rand : Nat} {result : BatchResult} (hlen : b.length ≤ n)
    (h : proveBatch cfg table (k * n) b (attempts.headD []) rand [] [] = .ok result)
    (hparams : result.params = some params) :
    params.partitions.Pairwise (fun x y => x.index < y.index) ∧
      (∀ pp ∈ params.partitions, pp.index < (k + 1) * n) ∧
      Accounted cfg table n k (b ++ ps) attempts (result.calls :: calls) params := by
  have hskip : SkippedBy [] [] := by
    intro n
    simp [covers]
  obtain ⟨before, a, after, postSkipped, rand', proven, hrounds, hskip', hanswer, ⟨hcount, hlast⟩,
    hpartitions, hproven⟩ := proveBatch_spec hskip rfl h hparams
  obtain ⟨hsorted, hall⟩ := provePartitions_spec hskip' hproven
  have hlt : ∀ e ∈ proven, e.1.index < (k + 1) * n := by
    intro e he
    obtain ⟨hle, p, hp, -⟩ := hall e he
    have hb := (List.getElem?_eq_some_iff.mp hp).1
    rw [Nat.succ_mul]
    omega
  rw [hpartitions]
  refine ⟨pairwise_map.mpr hsorted, forall_mem_map.mpr hlt, k, attempts.headD [], result.calls,
    le_refl k, ?_, ?_, before, a, after, rand', proven, hrounds, hanswer, hcount, hlast,
    hpartitions, fun e he => ?_⟩
  · rw [Nat.sub_self]
    cases attempts with
    | nil =>
      have hlength := congrArg List.length hrounds
      simp at hlength
    | cons rounds attempts => rfl
  · rw [Nat.sub_self]
    rfl
  · obtain ⟨hle, p, hp, hproves⟩ := hall e he
    refine ⟨Nat.div_eq_of_lt_le hle (hlt e he), p, ?_, hproves⟩
    dsimp only
    rw [getElem?_append_left (List.getElem?_eq_some_iff.mp hp).1]
    exact hp

omit [BitFields] in
/-- The params of the batches that follow one. -/
theorem accounted_of_tail {handed : List (List ExtendedSectorInfo)} (hn : 0 < n)
    (hb : b.length = n)
    (h : Accounted cfg table n (k + 1) ps attempts.tail calls params) :
    Accounted cfg table n k (b ++ ps) attempts (handed :: calls) params := by
  obtain ⟨j, rounds, handed', hkj, hrounds, hcalls, before, a, after, rand, proven, hsplit, hanswer,
    hcount, hlast, hpartitions, hall⟩ := h
  have hsub : j - k = j - (k + 1) + 1 := by omega
  refine ⟨j, rounds, handed', Nat.le_of_succ_le hkj, ?_, ?_, before, a, after, rand, proven, hsplit,
    hanswer, hcount, hlast, hpartitions, fun e he => ?_⟩
  · rw [getElem?_tail] at hrounds
    rw [hsub]
    exact hrounds
  · rw [hsub, getElem?_cons_succ]
    exact hcalls
  · obtain ⟨hdiv, p, hp, hproves⟩ := hall e he
    have hle : (k + 1) * n ≤ e.1.index := (Nat.le_div_iff_mul_le hn).mp (hdiv ▸ hkj)
    rw [Nat.succ_mul] at hle
    refine ⟨hdiv, p, ?_, hproves⟩
    dsimp only at hp ⊢
    rw [Nat.succ_mul, ← Nat.sub_sub] at hp
    rw [getElem?_append_right (by omega), hb]
    exact hp

/-- The loop over the batches, after `k` full ones. -/
theorem proveBatches_spec (hn : 0 < n) {k rand : Nat} {before batches : List (List Partition)}
    {posts : List PostParams} (hfull : Full n batches)
    (hstart : batches ≠ [] → (before.map List.length).sum = k * n)
    (h : proveBatches cfg table before batches attempts rand = .ok (posts, calls)) :
    (posts.flatMap PostParams.partitions).Pairwise (fun x y => x.index < y.index) ∧
      ∀ params ∈ posts, Accounted cfg table n k batches.flatten attempts calls params := by
  induction batches generalizing before attempts posts calls k rand with
  | nil =>
    cases h
    exact ⟨.nil, fun _ hparams => nomatch hparams⟩
  | cons b batches ih =>
    have hsum := hstart (cons_ne_nil b batches)
    obtain ⟨hlen, hmore, hfull⟩ := hfull
    unfold proveBatches at h
    rw [hsum] at h
    obtain ⟨result, hbatch, h⟩ := ok_of_bind h
    obtain ⟨⟨later, calls'⟩, hlater, h⟩ := ok_of_bind h
    cases h
    have hstart' : batches ≠ [] → ((before ++ [b]).map List.length).sum = (k + 1) * n := by
      intro hne
      rw [map_append, sum_append, hsum, map_singleton, sum_singleton,
        hmore hne, Nat.succ_mul]
    obtain ⟨hsorted, hall⟩ := ih hfull hstart' hlater
    have htail : ∀ params ∈ later, Accounted cfg table n k (b :: batches).flatten attempts
        (result.calls :: calls') params := by
      intro params hparams
      have hne : batches ≠ [] := by
        rintro rfl
        cases hlater
        cases hparams
      exact accounted_of_tail hn (hmore hne) (hall params hparams)
    cases hparams : result.params with
    | none => exact ⟨hsorted, htail⟩
    | some params =>
      obtain ⟨hbatchSorted, hlt, haccounted⟩ := accounted_of_batch hlen hbatch hparams
      refine ⟨pairwise_append.mpr ⟨hbatchSorted, hsorted, fun x hx y hy => ?_⟩,
        forall_mem_cons.mpr ⟨haccounted, htail⟩⟩
      obtain ⟨params', hparams', hy⟩ := mem_flatMap.mp hy
      exact lt_of_lt_of_le (hlt x hx) ((hall params' hparams').le_index hn y hy)

end CycleLemmas

open CycleLemmas in
/-- What a cycle returns, whatever the checks and the prover answer. The indexes increase over
all params, and each is the position of its partition in the deadline. The params are those of a
round of their own batch, the one whose proofs were accepted, and what this round handed to the
prover are the sectors of the partitions as they are to be proven. -/
theorem post_cycle_proves (cfg : PostConfig) (table : SectorTable) (partitions : List Partition)
    (attempts : List (List Attempt)) (rand : Nat) (posts : List PostParams)
    (calls : List (List (List ExtendedSectorInfo)))
    (hcycle : runPoStCycle cfg table partitions attempts rand = .ok (posts, calls)) :
    (posts.flatMap PostParams.partitions).Pairwise (fun x y => x.index < y.index) ∧
      ∀ params ∈ posts, ∃ n j rounds handed, partitionsPerMsg cfg = .ok n ∧
        attempts[j]? = some rounds ∧ calls[j]? = some handed ∧
        ProvenBy cfg table (partitions[·]?) n j rounds handed params := by
  obtain ⟨batches, hbatches, hposts⟩ := ok_of_bind hcycle
  obtain ⟨n, hper, hbatches⟩ := ok_of_bind hbatches
  split at hbatches
  · cases hbatches
  next hne =>
  have hn := Nat.pos_of_ne_zero hne
  obtain ⟨hflat, hfull⟩ := batchesOf_spec hn (le_refl partitions.length)
  rw [Except.ok.inj hbatches] at hflat hfull
  have hstart : batches ≠ [] → (([] : List (List Partition)).map List.length).sum = 0 * n :=
    fun _ => (Nat.zero_mul n).symm
  obtain ⟨hsorted, hall⟩ := proveBatches_spec hn hfull hstart hposts
  refine ⟨hsorted, fun params hparams => ?_⟩
  obtain ⟨j, rounds, handed, -, hrounds, hcalls, hproven⟩ := hall params hparams
  rw [hflat, Nat.zero_mul] at hproven
  exact ⟨n, j, rounds, handed, hper, hrounds, hcalls, hproven⟩

end

/-- A partition without faults. -/
def faultless (allSectors : BitField) : Partition where
  allSectors := allSectors
  faultySectors := []
  recoveringSectors := []
  liveSectors := allSectors
  live_sub _ h := h
  recovering_sub _ h := nomatch h

/-- One partition in a message. -/
def onePerMessage : PostConfig := ⟨some 10, some 3000, 1, false, false, 4⟩

def numberedSectors : SectorTable := ⟨fun n => ⟨n, 100 + n, 8, none⟩, fun _ => rfl⟩

def roundOf (bad : List Nat) (answer : Answer) : Attempt :=
  ⟨fun _ => ⟨some Arrangement.listed, some bad, some Arrangement.listed⟩, answer⟩

/-- Sectors 0 and 1 are in the first partition, 2 and 3 in the second. The prover fails at
sector 0 and then proves the first batch, and sector 3 fails its check in the second. -/
def twoBatches : Except PostError (List PostParams × List (List (List ExtendedSectorInfo))) :=
  runPoStCycle onePerMessage numberedSectors
    [faultless [⟨true, 2⟩], faultless [⟨false, 2⟩, ⟨true, 2⟩]]
    [[roundOf [] (.failed [0] false), roundOf [] (.generated [7] (some 5) (some true))],
      [roundOf [3] (.generated [8] (some 5) (some true))]] 5

theorem post_cycle_proves_two_batches : ∃ posts calls, twoBatches = .ok (posts, calls) ∧
    calls.map (·.map (·.map (·.sectorNumber))) = [[[0, 1], [1, 1]], [[2, 2]]] ∧
      (posts.flatMap PostParams.partitions).Pairwise fun x y => x.index < y.index := by
  have hcalls : twoBatches.toOption.map (·.2.map (·.map (·.map (·.sectorNumber)))) =
      some [[[0, 1], [1, 1]], [[2, 2]]] := by decide +kernel
  cases hrun : twoBatches with
  | error e =>
    rw [hrun] at hcalls
    cases hcalls
  | ok result =>
    rw [hrun] at hcalls
    exact ⟨_, _, rfl, Option.some.inj hcalls, (post_cycle_proves _ _ _ _ _ _ _ hrun).1⟩

end OpenDsn.Wdpost
