import OpenDsn.Pipeline.Fsm

/-!
# Rounds of the planners

`storage/pipeline/fsm.go`: every planner is a loop over the events it is handed, with a round of its
own for one event. What a round of `planOne` and one of `planCommitting` can come to is said once,
in `PlanOne` and `PlanCommitting`; `loop_cases` says how far the loop goes, and `plan_eq` reads
`Plan` as that loop.
-/

namespace OpenDsn.Pipeline.Fsm

open List

/-- Drops the error. -/
def ignoring : Outcome → Outcome
  | .reject s => .stop s
  | outcome => outcome

/-- One round of the loop of a planner. -/
def Planner.body : Planner → SectorInfo → Event → Outcome
  | planOne ts => planOneBody ts
  | planOneOrIgnore ts => fun s e => ignoring (planOneBody ts s e)
  | planCommitting => planCommittingBody
  | final => fun s e => if e.isGlobal then .stop (e.applyGlobal s).1 else .keep s
  | finalRemoved => fun s _ => .more s

namespace PlannerLemmas

open Outcome Planner

/-! ## Rounds -/

variable {body : SectorInfo → Event → Outcome} {s s' : SectorInfo} {e : Event} {p : Planner}
  {q : SectorState} {es : List Event}

/-- What a round of `planOne` can come to. -/
inductive PlanOne (ts : List Transition) (s : SectorInfo) (e : Event) : Outcome → Prop
  | global : e.isGlobal = true → PlanOne ts s e (.stop (e.applyGlobal s).1)
  | panics : e.isGlobal = false → e.apply s = none → PlanOne ts s e .panics
  | taken {t : Transition} {s' : SectorInfo} : e.isGlobal = false → t ∈ ts → t.mutator = e.type →
      e.apply s = some s' → PlanOne ts s e (t.next.run s')
  | ignored : e.isGlobal = false → e.isIgnorable = true → PlanOne ts s e (.more s)
  | unexpected : e.isGlobal = false → PlanOne ts s e (.reject s)

theorem planOne_cases (ts : List Transition) (s : SectorInfo) (e : Event) :
    PlanOne ts s e (planOneBody ts s e) := by
  unfold planOneBody
  split
  · next hglobal => exact .global hglobal
  · next hglobal =>
    rw [Bool.not_eq_true] at hglobal
    split
    · next t ht =>
      split
      · next happly => exact .panics hglobal happly
      · next s' happly =>
        have htype := find?_some ht
        exact .taken hglobal (mem_of_find?_eq_some ht) (of_decide_eq_true htype) happly
    · split
      · next hignorable => exact .ignored hglobal hignorable
      · exact .unexpected hglobal

theorem run_cases (next : Next) :
    next = .more ∧ next.run s = .more s ∨ (∃ s', next.run s = .stop s') ∨
      next.run s = .reject s := by
  cases next with
  | enter state => exact .inr (.inl ⟨_, rfl⟩)
  | more => exact .inl ⟨rfl, rfl⟩
  | back =>
    refine .inr ?_
    unfold Next.run
    dsimp only
    split
    · exact .inr rfl
    · exact .inl ⟨_, rfl⟩

theorem planOneBody_ne_keep (ts : List Transition) : planOneBody ts s e ≠ .keep s' := by
  have hcases := planOne_cases ts s e
  generalize planOneBody ts s e = outcome at hcases
  cases hcases with
  | @taken t s₁ =>
    rcases run_cases t.next with ⟨-, hrun⟩ | ⟨s₂, hrun⟩ | hrun <;> rw [hrun] <;> nofun
  | _ => nofun

/-- The transitions of a planner. -/
def table : Planner → List Transition
  | .planOne ts | .planOneOrIgnore ts => ts
  | _ => []

/-- The planner goes on at two events only, and the key is released from wherever the update can
become active. -/
def Regular (t : Transition) : Prop :=
  (t.next = .more → t.mutator = .sectorStartPacking ∨ t.mutator = .sectorAddPiece) ∧
    (t.mutator = .sectorUpdateActive → t.next = .enter .releaseSectorKey)

instance (t : Transition) : Decidable (Regular t) := inferInstanceAs (Decidable (_ ∧ _))

theorem regular_of_mem {t : Transition} (hp : fsmPlanners q = some p)
    (ht : t ∈ table p) : Regular t := by
  revert t
  cases q with
  | other name => cases hp
  | _ =>
    cases hp
    decide

theorem eq_of_type_startPacking (h : e.type = .sectorStartPacking) : e = .sectorStartPacking := by
  cases e with
  | sectorStartPacking => rfl
  | _ => cases h

theorem eq_of_type_addPiece (h : e.type = .sectorAddPiece) : ∃ now, e = .sectorAddPiece now := by
  cases e with
  | sectorAddPiece now => exact ⟨now, rfl⟩
  | _ => cases h

theorem eq_of_isIgnorable (h : e.isIgnorable = true) : e = .sectorStartPacking := by
  cases e with
  | sectorStartPacking => rfl
  | _ => cases h

/-- At which events a planner other than `planCommitting` goes on: the sector keeps its state. -/
theorem planOne_more (hp : fsmPlanners q = some p) (hbody : planOneBody (table p) s e = .more s') :
    (e = .sectorStartPacking ∧ s' = s ∨ ∃ now, e = .sectorAddPiece now) ∧ s'.state = s.state := by
  have hcases := planOne_cases (table p) s e
  rw [hbody] at hcases
  generalize hmore : more s' = outcome at hcases
  cases hcases with
  | global | panics | unexpected => cases hmore
  | ignored _ hignorable =>
    cases hmore
    exact ⟨.inl ⟨eq_of_isIgnorable hignorable, rfl⟩, rfl⟩
  | @taken t s₁ hglobal ht htype happly =>
    obtain ⟨hnext, rfl⟩ : t.next = .more ∧ s' = s₁ := by
      rcases run_cases t.next with ⟨hnext, hrun⟩ | ⟨s₂, hrun⟩ | hrun
      · exact ⟨hnext, more.inj (hmore.trans hrun)⟩
      · cases hmore.trans hrun
      · cases hmore.trans hrun
    rcases (regular_of_mem hp ht).1 hnext with hmut | hmut
    · obtain rfl := eq_of_type_startPacking (htype.symm.trans hmut)
      cases happly
      exact ⟨.inl ⟨rfl, rfl⟩, rfl⟩
    · obtain ⟨now, rfl⟩ := eq_of_type_addPiece (htype.symm.trans hmut)
      refine ⟨.inr ⟨now, rfl⟩, ?_⟩
      cases happly
      split
      · rfl
      · rfl

/-- The states in which a call of `planCommitting` can be. -/
def committingStates : List SectorState :=
  [.committing, .submitCommit, .commitFinalize, .computeProofFailed, .remoteCommitFailed,
    .sealPreCommit1Failed, .commitFailed, .commitWait]

/-- What a round of `planCommitting` can come to. -/
inductive PlanCommitting (s : SectorInfo) (e : Event) : Outcome → Prop
  | restart : e = .sectorRestart → PlanCommitting s e (.more s)
  | global : e.isGlobal = true → PlanCommitting s e (.stop (e.applyGlobal s).1)
  | moves {proof : List UInt8} {q : SectorState} : e.isGlobal = false →
      e.type ≠ .sectorUpdateActive → q ∈ committingStates →
      PlanCommitting s e (.more { s with proof := proof, state := q })
  | sameSeed : e.isGlobal = false → e.type ≠ .sectorUpdateActive → PlanCommitting s e (.more s)
  | newSeed {s' : SectorInfo} : e.isGlobal = false → s'.state = .committing →
      PlanCommitting s e (.stop s')
  | kept : e.isGlobal = false → PlanCommitting s e (.keep s)

theorem planCommitting_cases {outcome : Outcome} (h : planCommittingBody s e = outcome) :
    PlanCommitting s e outcome := by
  subst h
  cases e with
  | sectorRestart => exact .restart rfl
  | sectorFatalError | sectorForceState | sectorTerminate | sectorRemove => exact .global rfl
  | sectorSeedReady value epoch =>
    have hbody : planCommittingBody s (.sectorSeedReady value epoch) =
        if epoch = s.seedEpoch ∧ value = s.seedValue then .more s
        else .stop { s with seedEpoch := epoch, seedValue := value, state := .committing } := rfl
    rw [hbody]
    split
    · exact .sameSeed rfl nofun
    · exact .newSeed rfl rfl
  | sectorCommitted | sectorProofReady | sectorComputeProofFailed | sectorRemoteCommit1Failed
  | sectorRemoteCommit2Failed | sectorSealPreCommit1Failed | sectorCommitFailed
  | sectorRetryCommitWait => exact .moves rfl nofun (by decide)
  | _ => exact .kept rfl

theorem planCommitting_more (hs : s.state ∈ committingStates)
    (hbody : planCommittingBody s e = .more s') :
    (e = .sectorRestart ∨ e.isGlobal = false ∧ e.type ≠ .sectorUpdateActive) ∧
      s'.state ∈ committingStates := by
  cases planCommitting_cases hbody with
  | restart hrestart => exact ⟨.inl hrestart, hs⟩
  | moves hglobal htype hq => exact ⟨.inr ⟨hglobal, htype⟩, hq⟩
  | sameSeed hglobal htype => exact ⟨.inr ⟨hglobal, htype⟩, hs⟩

theorem planCommitting_stop (hbody : planCommittingBody s e = .stop s') :
    e.isGlobal = true ∧ s' = (e.applyGlobal s).1 ∨ e.isGlobal = false ∧ s'.state = .committing := by
  cases planCommitting_cases hbody with
  | global hglobal => exact .inl ⟨hglobal, rfl⟩
  | newSeed hglobal hstate => exact .inr ⟨hglobal, hstate⟩

/-- Where a planner other than `planCommitting` goes on. -/
theorem body_eq_more (hp : fsmPlanners s.state = some p) (hcommitting : p ≠ .planCommitting)
    (hbody : p.body s e = .more s') :
    p = .finalRemoved ∧ s' = s ∨ planOneBody (table p) s e = .more s' := by
  cases p with
  | planOne ts => exact .inr hbody
  | planOneOrIgnore ts =>
    refine .inr ?_
    have hround : ignoring (planOneBody ts s e) = .more s' := hbody
    unfold table
    cases hone : planOneBody ts s e with
    | more s₁ =>
      rw [hone] at hround
      exact hround
    | _ =>
      rw [hone] at hround
      cases hround
  | planCommitting => exact absurd rfl hcommitting
  | final =>
    unfold body at hbody
    dsimp only at hbody
    split at hbody
    · cases hbody
    · cases hbody
  | finalRemoved => exact .inl ⟨rfl, (more.inj hbody).symm⟩

theorem stop_of_global (hglobal : e.isGlobal = true) (hbody : p.body s e = .stop s') :
    s' = (e.applyGlobal s).1 := by
  have hone : ∀ ts, planOneBody ts s e = .stop (e.applyGlobal s).1 := fun ts => if_pos hglobal
  cases p with
  | planOne ts => exact stop.inj (hbody.symm.trans (hone ts))
  | planOneOrIgnore ts =>
    have hround : ignoring (planOneBody ts s e) = .stop s' := hbody
    rw [hone ts] at hround
    exact (stop.inj hround).symm
  | planCommitting =>
    rcases planCommitting_stop hbody with ⟨-, heq⟩ | ⟨hglobal', -⟩
    · exact heq
    · rw [hglobal] at hglobal'
      cases hglobal'
  | final =>
    have hround : (if e.isGlobal then stop (e.applyGlobal s).1 else .keep s) = .stop s' :=
      hbody
    rw [if_pos hglobal] at hround
    exact (stop.inj hround).symm
  | finalRemoved => cases hbody

/-- At `SectorUpdateActive` a sector is moved to `ReleaseSectorKey`, or not at all. -/
theorem planOne_updateActive (hp : fsmPlanners q = some p)
    (htype : e.type = .sectorUpdateActive) (hglobal : e.isGlobal = false) :
    (∃ s', planOneBody (table p) s e = .stop s' ∧ s'.state = .releaseSectorKey) ∨
      planOneBody (table p) s e = .panics ∨ planOneBody (table p) s e = .reject s := by
  have hcases := planOne_cases (table p) s e
  generalize planOneBody (table p) s e = outcome at hcases
  cases hcases with
  | global hglobal' =>
    rw [hglobal] at hglobal'
    cases hglobal'
  | panics => exact .inr (.inl rfl)
  | @taken t s₁ _ ht hmut _ =>
    rw [(regular_of_mem hp ht).2 (hmut.trans htype)]
    exact .inl ⟨_, rfl, rfl⟩
  | ignored _ hignorable =>
    rw [eq_of_isIgnorable hignorable] at htype
    cases htype
  | unexpected => exact .inr (.inr rfl)

theorem body_eq_keep (hbody : p.body s e = .keep s') : s' = s := by
  cases p with
  | planOne ts => exact absurd hbody (planOneBody_ne_keep ts)
  | planOneOrIgnore ts =>
    have hround : ignoring (planOneBody ts s e) = .keep s' := hbody
    cases hone : planOneBody ts s e with
    | keep s₁ => exact absurd hone (planOneBody_ne_keep ts)
    | _ =>
      rw [hone] at hround
      cases hround
  | planCommitting =>
    cases planCommitting_cases hbody with
    | kept => rfl
  | final =>
    have hround : (if e.isGlobal then stop (e.applyGlobal s).1 else .keep s) = .keep s' :=
      hbody
    split at hround
    · cases hround
    · exact (keep.inj hround).symm
  | finalRemoved => cases hbody

/-! ## The loops -/

theorem map_loop_planOne (ts : List Transition) (n : Nat) (es : List Event) (s : SectorInfo) :
    (loop (planOneBody ts) n es s).map (fun r => { r with failed := false }) =
      loop (Planner.planOneOrIgnore ts).body n es s := by
  induction es generalizing n s with
  | nil => rfl
  | cons e es ih =>
    have hround : (planOneOrIgnore ts).body s e = ignoring (planOneBody ts s e) := rfl
    simp only [loop, hround]
    cases hbody : planOneBody ts s e with
    | more s' => exact ih (n + 1) s'
    | panics | stop s' | reject s' => rfl
    | keep s' => exact absurd hbody (planOneBody_ne_keep ts)

theorem loop_more (n : Nat) (es : List Event) :
    loop (fun s _ => .more s) n es s = some ⟨s, n + es.length, false⟩ := by
  induction es generalizing n with
  | nil => rfl
  | cons e es ih =>
    unfold loop
    dsimp only
    rw [ih, length_cons, Nat.add_right_comm, add_assoc]

/-- Every planner is the loop of its round. -/
theorem run_eq_loop (es : List Event) : p.run (e :: es) s = loop p.body 0 (e :: es) s := by
  cases p with
  | planOne ts => rfl
  | planOneOrIgnore ts => exact map_loop_planOne ts 0 (e :: es) s
  | planCommitting => rfl
  | final =>
    unfold run loop body
    dsimp only
    split
    · rfl
    · rfl
  | finalRemoved =>
    unfold run body
    rw [loop_more, zero_add]

/-- The loop goes on at each of the events. -/
inductive Mores (body : SectorInfo → Event → Outcome) : SectorInfo → List Event → SectorInfo → Prop
  | nil {s : SectorInfo} : Mores body s [] s
  | cons {s s₁ s' : SectorInfo} {e : Event} {es : List Event} : body s e = .more s₁ →
      Mores body s₁ es s' → Mores body s (e :: es) s'

theorem Mores.snoc {s₁ : SectorInfo} (h : Mores body s es s')
    (hbody : body s' e = .more s₁) : Mores body s (es ++ [e]) s₁ := by
  induction h with
  | nil => exact .cons hbody .nil
  | cons hhead _ ih => exact .cons hhead (ih hbody)

theorem loop_mores {pre : List Event} (h : Mores body s pre s') (n : Nat) (es : List Event) :
    loop body n (pre ++ es) s = loop body (n + pre.length) es s' := by
  induction h generalizing n with
  | nil => rfl
  | cons hbody _ ih =>
    rw [cons_append, loop, hbody]
    dsimp only
    rw [ih, length_cons, Nat.add_right_comm, add_assoc]

/-- What the loop returns at an event at which it does not go on, after `n` events. -/
inductive Leaves (n : Nat) : Outcome → Option Planned → Prop
  | panics : Leaves n .panics none
  | stop {s : SectorInfo} : Leaves n (.stop s) (some ⟨s, n + 1, false⟩)
  | reject {s : SectorInfo} : Leaves n (.reject s) (some ⟨s, n + 1, true⟩)
  | keep {s : SectorInfo} : Leaves n (.keep s) (some ⟨s, n, true⟩)

/-- A loop goes on to the end, or up to an event at which it returns. -/
theorem loop_cases (body : SectorInfo → Event → Outcome) (n : Nat) (es : List Event)
    (s : SectorInfo) :
    (∃ s', Mores body s es s' ∧ loop body n es s = some ⟨s', n + es.length, false⟩) ∨
      ∃ pre e post s', es = pre ++ e :: post ∧ Mores body s pre s' ∧
        Leaves (n + pre.length) (body s' e) (loop body n es s) := by
  induction es generalizing n s with
  | nil => exact .inl ⟨s, .nil, rfl⟩
  | cons e es ih =>
    unfold loop
    cases hbody : body s e with
    | panics | stop s' | reject s' | keep s' =>
      exact .inr ⟨[], e, es, s, rfl, .nil, by rw [hbody]; constructor⟩
    | more s₁ =>
      have hlength : ∀ l : List Event, n + (e :: l).length = n + 1 + l.length := fun l => by
        rw [length_cons, Nat.add_right_comm, add_assoc]
      rcases ih (n + 1) s₁ with ⟨s', hmores, hloop⟩ | ⟨pre, e', post, s', rfl, hmores, hleaves⟩
      · exact .inl ⟨s', .cons hbody hmores, by rw [hlength]; exact hloop⟩
      · exact .inr ⟨e :: pre, e', post, s', rfl, .cons hbody hmores, by
          rw [hlength]; exact hleaves⟩

theorem plan_eq (hp : fsmPlanners s.state = some p) (hes : es ≠ []) :
    plan es s = (loop p.body 0 es s).map fun r =>
      if r.failed then (r.info, r.processed) else decideNext r := by
  obtain ⟨e, es, rfl⟩ := exists_cons_of_ne_nil hes
  unfold plan plannerFor
  rw [hp, ← run_eq_loop]
  dsimp only
  cases p.run (e :: es) s with
  | none => rfl
  | some r => rfl

/-- What `Plan` returns after a round with the last event, when `n` events have been processed. -/
def after (n : Nat) : Outcome → Option (SectorInfo × Nat)
  | .panics => none
  | .more s | .stop s => some (decideNext ⟨s, n + 1, false⟩)
  | .reject s => some (s, n + 1)
  | .keep s => some (s, n)

/-- A call that goes on up to its last event. -/
theorem plan_after {pre : List Event} (hp : fsmPlanners s.state = some p)
    (hmores : Mores p.body s pre s') :
    plan (pre ++ [e]) s = after pre.length (p.body s' e) := by
  rw [plan_eq hp (append_ne_nil_of_right_ne_nil pre (cons_ne_nil e [])),
    loop_mores hmores, zero_add]
  unfold loop
  cases p.body s' e with
  | _ => rfl

theorem decideNext_release (hs : s.state = .releaseSectorKeyFailed) (n : Nat) :
    decideNext ⟨s, n, false⟩ = (s, 0) := by
  unfold decideNext
  rw [if_neg (by rw [hs]; decide), if_pos hs]

theorem decideNext_eq (hpacking : s.state ≠ .packingFailed)
    (hrelease : s.state ≠ .releaseSectorKeyFailed) (n : Nat) :
    decideNext ⟨s, n, false⟩ = (s, n) := by
  unfold decideNext
  rw [if_neg hpacking, if_neg hrelease]

end PlannerLemmas

end OpenDsn.Pipeline.Fsm
