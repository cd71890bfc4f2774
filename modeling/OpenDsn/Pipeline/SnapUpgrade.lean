import OpenDsn.Lib.Run
import OpenDsn.Pipeline.Planner

/-!
# Reverting an upgrade

`storage/pipeline/fsm.go`, `fsm_events.go`: a sector in `Available` that starts an upgrade sets its
pieces aside, and `SectorRevertUpgradeToProving` puts them back. In between it can go through every
state of the upgrade, the failed ones included.

* `upgrade_reverted`: a sector that returns to `Proving` this way has its update fields cleared and
  its seal as it was, and its pieces as well if no upgrade was completed on the way;
* `upgrade_reverted_after_completed`: an upgrade that was completed has left other pieces, and a
  later one goes back to these.
-/

namespace OpenDsn.Pipeline.Fsm

open Lib List Option

/-- One event, planned on its own. -/
def step (s : SectorInfo) (e : Event) : Option SectorInfo := (plan [e] s).map Prod.fst

/-- The fields of the original seal. -/
structure SealFields where
  ticketValue : List UInt8
  ticketEpoch : Int
  commD : Option Nat
  commR : Option Nat
  proof : List UInt8
  seedValue : List UInt8
  seedEpoch : Int

def SectorInfo.sealFields (s : SectorInfo) : SealFields :=
  ⟨s.ticketValue, s.ticketEpoch, s.commD, s.commR, s.proof, s.seedValue, s.seedEpoch⟩

/-- The event completes an upgrade. -/
def Completes (s : SectorInfo) (e : Event) : Prop :=
  s.state = .releaseSectorKey ∧ e.type = .sectorKeyReleased

instance (s : SectorInfo) (e : Event) : Decidable (Completes s e) :=
  inferInstanceAs (Decidable (_ ∧ _))

namespace UpgradeLemmas

variable {s s' s₁ : SectorInfo} {e : Event} {p : Planner} {q q' : SectorState} {t : EventType}
  {fields : SealFields} {pieces : List SectorPiece}

open PlannerLemmas

/-! ## What the events write -/

def writesSeal : List EventType :=
  [.sectorTicket, .sectorPreCommit2, .sectorSeedReady, .sectorCommitted, .sectorProofReady,
    .sectorReceive]

def writesCCPieces : List EventType :=
  [.sectorStartCCUpdate, .sectorRevertUpgradeToProving, .sectorReceive]

def writesPieces : List EventType :=
  [.sectorPieceAdded, .sectorPacked, .sectorStartCCUpdate, .sectorUpdateDealIDs,
    .sectorRevertUpgradeToProving, .sectorReceive]

theorem apply_addPiece {now : Int} (h : (Event.sectorAddPiece now).apply s = some s₁) :
    s₁ = { s with creationTime := s₁.creationTime } := by
  have heq : (if s.creationTime = 0 then { s with creationTime := now } else s) = s₁ :=
    some.inj h
  subst heq
  split
  · rfl
  · rfl

theorem apply_updateDealIDs {updates : Table Int Nat}
    (h : (Event.sectorUpdateDealIDs updates).apply s = some s₁) :
    s₁ = { s with pieces := s₁.pieces } := by
  obtain ⟨pieces, -, rfl⟩ := map_eq_some_iff.mp h
  rfl

section

variable (h : e.apply s = some s₁)
include h

theorem sealFields_apply (hwrites : e.type ∉ writesSeal) : s₁.sealFields = s.sealFields := by
  cases e with
  | sectorTicket | sectorPreCommit2 | sectorSeedReady | sectorCommitted | sectorProofReady
  | sectorReceive => simp [Event.type, writesSeal] at hwrites
  | sectorAddPiece now =>
    rw [apply_addPiece h]
    rfl
  | sectorUpdateDealIDs updates =>
    rw [apply_updateDealIDs h]
    rfl
  | _ =>
    cases h
    rfl

theorem ccPieces_apply (hwrites : e.type ∉ writesCCPieces) : s₁.ccPieces = s.ccPieces := by
  cases e with
  | sectorStartCCUpdate | sectorRevertUpgradeToProving | sectorReceive =>
    simp [Event.type, writesCCPieces] at hwrites
  | sectorAddPiece now => rw [apply_addPiece h]
  | sectorUpdateDealIDs updates => rw [apply_updateDealIDs h]
  | _ =>
    cases h
    rfl

theorem pieces_apply (hwrites : e.type ∉ writesPieces) : s₁.pieces = s.pieces := by
  cases e with
  | sectorPieceAdded | sectorPacked | sectorStartCCUpdate | sectorUpdateDealIDs
  | sectorRevertUpgradeToProving | sectorReceive => simp [Event.type, writesPieces] at hwrites
  | sectorAddPiece now => rw [apply_addPiece h]
  | _ =>
    cases h
    rfl

theorem state_apply (hwrites : e.type ≠ .sectorReceive) : s₁.state = s.state := by
  cases e with
  | sectorReceive info => exact absurd rfl hwrites
  | sectorAddPiece now => rw [apply_addPiece h]
  | sectorUpdateDealIDs updates => rw [apply_updateDealIDs h]
  | _ =>
    cases h
    rfl

end

theorem eq_startCCUpdate (h : e.type = .sectorStartCCUpdate) : e = .sectorStartCCUpdate := by
  cases e with
  | sectorStartCCUpdate => rfl
  | _ => cases h

theorem eq_revertUpgradeToProving (h : e.type = .sectorRevertUpgradeToProving) :
    e = .sectorRevertUpgradeToProving := by
  cases e with
  | sectorRevertUpgradeToProving => rfl
  | _ => cases h

/-! ## The states of an upgrade -/

/-- From the start of an upgrade to the release of the old key. -/
def upgradeStates : List SectorState :=
  [.snapDealsWaitDeals, .snapDealsAddPiece, .snapDealsPacking, .updateReplica, .proveReplicaUpdate,
    .finalizeReplicaUpdate, .submitReplicaUpdate, .replicaUpdateWait, .updateActivating,
    .releaseSectorKey, .snapDealsAddPieceFailed, .snapDealsDealsExpired, .snapDealsRecoverDealIDs,
    .abortUpgrade, .replicaUpdateFailed, .releaseSectorKeyFailed, .finalizeReplicaUpdateFailed]

/-- Between the upgrades. -/
def restStates : List SectorState := [.available, .proving, .faulty, .faultReported]

/-- How an event can move a sector among these states. -/
inductive Move (q : SectorState) (t : EventType) (q' : SectorState) : Prop
  | upgrades : q ∈ upgradeStates → q' ∈ upgradeStates → t ∉ writesCCPieces → Move q t q'
  | rests : q ∈ restStates → q' ∈ restStates → t ∉ writesPieces → Move q t q'
  | starts : q ∈ restStates → q' ∈ upgradeStates → t = .sectorStartCCUpdate → Move q t q'
  | reverts : q ∈ upgradeStates → q' ∈ restStates → t = .sectorRevertUpgradeToProving → Move q t q'
  | completes : q = .releaseSectorKey → q' ∈ restStates → t = .sectorKeyReleased → Move q t q'

theorem move_iff : Move q t q' ↔ (q ∈ upgradeStates ∧ q' ∈ upgradeStates ∧ t ∉ writesCCPieces) ∨
    (q ∈ restStates ∧ q' ∈ restStates ∧ t ∉ writesPieces) ∨
    (q ∈ restStates ∧ q' ∈ upgradeStates ∧ t = .sectorStartCCUpdate) ∨
    (q ∈ upgradeStates ∧ q' ∈ restStates ∧ t = .sectorRevertUpgradeToProving) ∨
    (q = .releaseSectorKey ∧ q' ∈ restStates ∧ t = .sectorKeyReleased) := by
  constructor
  · rintro (⟨hq, hq', ht⟩ | ⟨hq, hq', ht⟩ | ⟨hq, hq', ht⟩ | ⟨hq, hq', ht⟩ | ⟨hq, hq', ht⟩)
    · exact .inl ⟨hq, hq', ht⟩
    · exact .inr (.inl ⟨hq, hq', ht⟩)
    · exact .inr (.inr (.inl ⟨hq, hq', ht⟩))
    · exact .inr (.inr (.inr (.inl ⟨hq, hq', ht⟩)))
    · exact .inr (.inr (.inr (.inr ⟨hq, hq', ht⟩)))
  · rintro (⟨hq, hq', ht⟩ | ⟨hq, hq', ht⟩ | ⟨hq, hq', ht⟩ | ⟨hq, hq', ht⟩ | ⟨hq, hq', ht⟩)
    · exact .upgrades hq hq' ht
    · exact .rests hq hq' ht
    · exact .starts hq hq' ht
    · exact .reverts hq hq' ht
    · exact .completes hq hq' ht

instance : Decidable (Move q t q') := decidable_of_iff' _ move_iff

/-- A transition writes nothing of the seal, and is a move; one that goes on stays. -/
def IsMove (q : SectorState) (t : Transition) : Prop :=
  t.mutator ∉ writesSeal ∧ match t.next with
    | .enter q' => Move q t.mutator q'
    | .more => Move q t.mutator q
    | .back => False

instance (q : SectorState) (t : Transition) : Decidable (IsMove q t) := by
  unfold IsMove
  cases t.next with
  | enter q' => exact inferInstanceAs (Decidable (_ ∧ Move _ _ _))
  | more => exact inferInstanceAs (Decidable (_ ∧ Move _ _ _))
  | back => exact inferInstanceAs (Decidable (_ ∧ False))

theorem isMove_of_mem : ∀ q ∈ upgradeStates ++ restStates,
    ∀ t ∈ (fsmPlanners q).elim [] table, IsMove q t := by
  decide +kernel

/-- The sector an outcome leaves. -/
def info : Outcome → Option SectorInfo
  | .panics => none
  | .more s | .stop s | .reject s | .keep s => some s

theorem info_ignoring (outcome : Outcome) : info (ignoring outcome) = info outcome := by
  cases outcome with
  | _ => rfl

/-- A planned event leaves the sector that the round of the planner leaves. -/
theorem step_info (hp : fsmPlanners s.state = some p) (hstep : step s e = some s') :
    ∃ s₁, info (p.body s e) = some s₁ ∧ (s₁.state ≠ .packingFailed → s' = s₁) := by
  have hdecide : ∀ r : Planned, r.info.state ≠ .packingFailed → (decideNext r).1 = r.info := by
    intro r hr
    unfold decideNext
    rw [if_neg hr]
    split
    · rfl
    · rfl
  have hplan : plan [e] s = after 0 (p.body s e) := plan_after hp .nil
  unfold step at hstep
  rw [hplan] at hstep
  cases hbody : p.body s e with
  | panics =>
    rw [hbody] at hstep
    cases hstep
  | more s₁ | stop s₁ =>
    rw [hbody] at hstep
    cases hstep
    exact ⟨s₁, rfl, hdecide ⟨s₁, 1, false⟩⟩
  | reject s₁ | keep s₁ =>
    rw [hbody] at hstep
    cases hstep
    exact ⟨s₁, rfl, fun _ => rfl⟩

/-- An event that is not global leaves the sector as it is, or takes a transition. -/
theorem info_planOne {ts : List Transition} (hglobal : e.isGlobal = false)
    (hinfo : info (planOneBody ts s e) = some s₁) :
    s₁ = s ∨ ∃ t ∈ ts, t.mutator = e.type ∧
      ∃ s₂, e.apply s = some s₂ ∧ info (t.next.run s₂) = some s₁ := by
  have hcases := planOne_cases ts s e
  generalize planOneBody ts s e = outcome at hcases hinfo
  cases hcases with
  | global hglobal' =>
    rw [hglobal] at hglobal'
    cases hglobal'
  | panics => cases hinfo
  | @taken t s₂ _ ht htype happly => exact .inr ⟨t, ht, htype, s₂, happly, hinfo⟩
  | ignored | unexpected => exact .inl (some.inj hinfo).symm

theorem info_body (hcommitting : p ≠ .planCommitting) (hglobal : e.isGlobal = false)
    (hinfo : info (p.body s e) = some s₁) :
    s₁ = s ∨ ∃ t ∈ table p, t.mutator = e.type ∧
      ∃ s₂, e.apply s = some s₂ ∧ info (t.next.run s₂) = some s₁ := by
  cases p with
  | planOne ts => exact info_planOne hglobal hinfo
  | planOneOrIgnore ts =>
    have hround : info (ignoring (planOneBody ts s e)) = some s₁ := hinfo
    rw [info_ignoring] at hround
    exact info_planOne hglobal hround
  | planCommitting => exact absurd rfl hcommitting
  | final =>
    have hround : info (if e.isGlobal then .stop (e.applyGlobal s).1 else .keep s) = some s₁ :=
      hinfo
    rw [hglobal, if_neg Bool.false_ne_true] at hround
    exact .inl (some.inj hround).symm
  | finalRemoved => exact .inl (some.inj hinfo).symm

theorem planner_of_mem : ∀ q ∈ upgradeStates ++ restStates,
    q ≠ .packingFailed ∧ ∃ p ∈ fsmPlanners q, p ≠ .planCommitting := by
  decide +kernel

theorem Move.mem (h : Move q t q') : q' ∈ upgradeStates ++ restStates := by
  cases h with
  | upgrades _ hq' _ | starts _ hq' _ => exact mem_append_left _ hq'
  | rests _ hq' _ | reverts _ hq' _ | completes _ hq' _ => exact mem_append_right _ hq'

theorem step_move (hstate : s.state ∈ upgradeStates ++ restStates) (hglobal : e.isGlobal = false)
    (hstep : step s e = some s') :
    s' = s ∨ ∃ s₁ q, e.apply s = some s₁ ∧ s' = { s₁ with state := q } ∧ e.type ∉ writesSeal ∧
      Move s.state e.type q := by
  obtain ⟨hpacking, p, hp, hcommitting⟩ := planner_of_mem s.state hstate
  obtain ⟨s₁, hinfo, heq⟩ := step_info hp hstep
  rcases info_body hcommitting hglobal hinfo with rfl | ⟨t, ht, htype, s₂, happly, hrun⟩
  · exact .inl (heq hpacking)
  refine .inr ?_
  obtain ⟨hseal, hmove⟩ := isMove_of_mem s.state hstate t
    (by rw [mem_def.mp hp]; exact ht)
  rw [htype] at hseal hmove
  cases hnext : t.next with
  | enter q =>
    rw [hnext] at hrun hmove
    cases hrun
    exact ⟨s₂, q, happly, heq (planner_of_mem q hmove.mem).1, hseal, hmove⟩
  | more =>
    rw [hnext] at hrun hmove
    obtain rfl : s₂ = s₁ := some.inj hrun
    have hkept : s₂.state = s.state := state_apply happly fun hreceive =>
      hseal (hreceive ▸ by decide)
    refine ⟨s₂, s.state, happly, ?_, hseal, hmove⟩
    rw [heq (hkept ▸ hpacking), ← hkept]
  | back =>
    rw [hnext] at hmove
    exact hmove.elim

/-! ## Runs -/

/-- A sector on the way, with the seal it has had. -/
structure OnWay (fields : SealFields) (s : SectorInfo) : Prop where
  state : s.state ∈ upgradeStates ++ restStates
  sealFields : s.sealFields = fields

/-- The pieces are set aside during an upgrade, and in the sector otherwise. -/
structure Kept (pieces : List SectorPiece) (s : SectorInfo) : Prop where
  upgrading : s.state ∈ upgradeStates → s.ccPieces = pieces
  resting : s.state ∈ restStates → s.pieces = pieces

theorem disjoint_states (hq : q ∈ upgradeStates) : q ∉ restStates := by
  revert hq
  revert q
  decide +kernel

theorem onWay_step (h : OnWay fields s) (hglobal : e.isGlobal = false)
    (hstep : step s e = some s') : OnWay fields s' := by
  rcases step_move h.state hglobal hstep with rfl | ⟨s₁, q, happly, rfl, hwrites, hmove⟩
  · exact h
  · exact ⟨hmove.mem, (sealFields_apply happly hwrites).trans h.sealFields⟩

theorem kept_step (h : OnWay fields s) (hkept : Kept pieces s) (hglobal : e.isGlobal = false)
    (hcompletes : ¬Completes s e) (hstep : step s e = some s') : Kept pieces s' := by
  rcases step_move h.state hglobal hstep with rfl | ⟨s₁, q, happly, rfl, -, hmove⟩
  · exact hkept
  cases hmove with
  | upgrades hq hq' hwrites =>
    exact ⟨fun _ => (ccPieces_apply happly hwrites).trans (hkept.upgrading hq),
      fun hrest => absurd hrest (disjoint_states hq')⟩
  | rests hq hq' hwrites =>
    exact ⟨fun hupgrade => absurd hq' (disjoint_states hupgrade),
      fun _ => (pieces_apply happly hwrites).trans (hkept.resting hq)⟩
  | starts hq hq' htype =>
    obtain rfl := eq_startCCUpdate htype
    cases happly
    exact ⟨fun _ => hkept.resting hq, fun hrest => absurd hrest (disjoint_states hq')⟩
  | reverts hq hq' htype =>
    obtain rfl := eq_revertUpgradeToProving htype
    cases happly
    exact ⟨fun hupgrade => absurd hq' (disjoint_states hupgrade), fun _ => hkept.upgrading hq⟩
  | completes hq _ htype => exact absurd ⟨hq, htype⟩ hcompletes

theorem onWay_run {events : List Event} (h : OnWay fields s)
    (hlocal : ∀ e ∈ events, e.isGlobal = false) (hrun : events.foldlM step s = some s') :
    OnWay fields s' ∧ (Kept pieces s →
      Guarded step (fun s e => ¬Completes s e) s events → Kept pieces s') := by
  induction events generalizing s with
  | nil =>
    cases hrun
    exact ⟨h, fun hkept _ => hkept⟩
  | cons e events ih =>
    obtain ⟨hglobal, hlocal⟩ := forall_mem_cons.mp hlocal
    rw [foldlM_cons] at hrun
    obtain ⟨s₁, hstep, hrun⟩ := bind_eq_some_iff.mp hrun
    obtain ⟨hway, hkeeps⟩ := ih (onWay_step h hglobal hstep) hlocal hrun
    refine ⟨hway, fun hkept hguard => ?_⟩
    exact hkeeps (kept_step h hkept hglobal hguard.1 hstep) (hguard.2 s₁ hstep)

end UpgradeLemmas

open UpgradeLemmas in
/-- A sector in `Available` starts an upgrade, and after any events that are not global returns to
`Proving` with `SectorRevertUpgradeToProving`. -/
theorem upgrade_reverted {s₀ sₙ s : SectorInfo} {events : List Event}
    (hstate : s₀.state = .available) (hlocal : ∀ e ∈ events, e.isGlobal = false)
    (hrun : (.sectorStartCCUpdate :: events).foldlM step s₀ = some sₙ)
    (hrevert : step sₙ .sectorRevertUpgradeToProving = some s)
    (hleft : sₙ.state ≠ .proving) (hback : s.state = .proving) :
    s.sealFields = s₀.sealFields ∧ s.ccUpdate = false ∧ s.ccPieces = [] ∧ s.updateSealed = none ∧
      s.updateUnsealed = none ∧ s.replicaUpdateProof = [] ∧ s.replicaUpdateMessage = none ∧
      (Guarded step (fun s e => ¬Completes s e) s₀ (.sectorStartCCUpdate :: events) →
        s.pieces = s₀.pieces) := by
  have hrest : s₀.state ∈ restStates := by
    rw [hstate]
    decide
  have hway : OnWay s₀.sealFields s₀ := ⟨mem_append_right _ hrest, rfl⟩
  have hkept : Kept s₀.pieces s₀ := ⟨fun hupgrade => absurd hrest (disjoint_states hupgrade),
    fun _ => rfl⟩
  obtain ⟨hwayₙ, hkeeps⟩ := onWay_run hway (forall_mem_cons.mpr ⟨rfl, hlocal⟩) hrun
  obtain ⟨-, hseal⟩ := onWay_step hwayₙ rfl hrevert
  rcases step_move hwayₙ.state rfl hrevert with rfl | ⟨s₁, q, happly, rfl, -, hmove⟩
  · exact absurd hback hleft
  cases happly
  refine ⟨hseal, rfl, rfl, rfl, rfl, rfl, rfl, fun hguard => ?_⟩
  cases hmove with
  | reverts hq _ _ => exact (hkeeps hkept hguard).upgrading hq
  | upgrades _ _ hwrites | rests _ _ hwrites => exact absurd (by decide) hwrites
  | starts _ _ htype => cases htype
  | completes _ _ htype => cases htype

/-- A sealed sector with one filler piece. -/
def fillerSector : SectorInfo :=
  { SectorInfo.zero with
    state := .available
    pieces := [⟨⟨2048, 1⟩, none⟩]
    ticketEpoch := 10
    commD := some 2
    commR := some 3
    proof := [4]
    seedEpoch := 20 }

/-- A deal is added, the update is proven and submitted, and the deal expires. -/
def expiredDeal : List Event :=
  [.sectorAddPiece 100, .sectorPieceAdded [⟨⟨2048, 5⟩, some ⟨none, 6, 7, 30, 40, true⟩⟩],
    .sectorStartPacking, .sectorPacked [], .sectorReplicaUpdate 8 9,
    .sectorProveReplicaUpdate [11], .sectorFinalized, .sectorReplicaUpdateSubmitted 12,
    .sectorSubmitReplicaUpdateFailed, .sectorDealsExpired, .sectorAbortUpgrade, .sectorFaulty]

theorem upgrade_reverted_deal_expired :
    ∃ sₙ s, (.sectorStartCCUpdate :: expiredDeal).foldlM step fillerSector = some sₙ ∧
      step sₙ .sectorRevertUpgradeToProving = some s ∧
      s.sealFields = fillerSector.sealFields ∧ s.updateSealed = none ∧
      s.replicaUpdateMessage = none ∧ s.pieces = fillerSector.pieces := by
  have hruns : ((.sectorStartCCUpdate :: expiredDeal).foldlM step fillerSector).any (fun sₙ =>
      sₙ.state ≠ .proving ∧ (step sₙ .sectorRevertUpgradeToProving).any fun s =>
        s.state = .proving) = true := by decide +kernel
  obtain ⟨sₙ, hrun, hends⟩ := (any_eq_true _ _).mp hruns
  obtain ⟨hleft, hreverts⟩ := of_decide_eq_true hends
  obtain ⟨s, hrevert, hback⟩ := (any_eq_true _ _).mp hreverts
  have hlocal : ∀ e ∈ expiredDeal, e.isGlobal = false := by decide
  have hopen : Guarded step (fun s e => ¬Completes s e) fillerSector
      (.sectorStartCCUpdate :: expiredDeal) := by decide +kernel
  obtain ⟨hfields, -, -, hsealed, -, -, hmessage, hpieces⟩ :=
    upgrade_reverted (by decide) hlocal hrun hrevert hleft (of_decide_eq_true hback)
  exact ⟨sₙ, s, hrun, hrevert, hfields, hsealed, hmessage, hpieces hopen⟩

/-- The deal does not expire, and the upgrade is completed; the next one is aborted. -/
def completedDeal : List Event :=
  [.sectorAddPiece 100, .sectorPieceAdded [⟨⟨2048, 5⟩, some ⟨none, 6, 7, 30, 40, true⟩⟩],
    .sectorStartPacking, .sectorPacked [], .sectorReplicaUpdate 8 9,
    .sectorProveReplicaUpdate [11], .sectorFinalized, .sectorReplicaUpdateSubmitted 12,
    .sectorReplicaUpdateLanded, .sectorUpdateActive, .sectorKeyReleased, .sectorMarkForUpdate,
    .sectorStartCCUpdate, .sectorAbortUpgrade]

/-- The sector returns to `Proving` with the piece of the deal and not the filler. -/
theorem upgrade_reverted_after_completed :
    (∀ e ∈ completedDeal, e.isGlobal = false) ∧
      ∃ sₙ s, (.sectorStartCCUpdate :: completedDeal).foldlM step fillerSector = some sₙ ∧
        step sₙ .sectorRevertUpgradeToProving = some s ∧ sₙ.state = .abortUpgrade ∧
        s.state = .proving ∧ s.pieces ≠ fillerSector.pieces := by
  have hruns : ((.sectorStartCCUpdate :: completedDeal).foldlM step fillerSector).any (fun sₙ =>
      sₙ.state = .abortUpgrade ∧ (step sₙ .sectorRevertUpgradeToProving).any fun s =>
        s.state = .proving ∧ s.pieces ≠ fillerSector.pieces) = true := by decide +kernel
  obtain ⟨sₙ, hrun, hends⟩ := (any_eq_true _ _).mp hruns
  obtain ⟨habort, hreverts⟩ := of_decide_eq_true hends
  obtain ⟨s, hrevert, hback⟩ := (any_eq_true _ _).mp hreverts
  obtain ⟨hproving, hpieces⟩ := of_decide_eq_true hback
  exact ⟨by decide, sₙ, s, hrun, hrevert, habort, hproving, hpieces⟩

end OpenDsn.Pipeline.Fsm
