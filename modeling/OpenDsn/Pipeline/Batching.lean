import OpenDsn.Lib.Batch
import OpenDsn.Pipeline.Planner

/-!
# Batches of sector events

`storage/pipeline/fsm.go`: `Plan` is handed the events that have arrived, and those it does not
report as processed are handed in again with the next ones. `planOne` returns at the first event
that moves the sector, so the next event is planned in the new state. `planCommitting` goes on, and
plans the events after it as if the sector were still in `Committing`.

* `ends_of_steady`: along events that are `Steady` the sector ends where they lead one at a time,
  for every way of cutting them into batches.
-/

namespace OpenDsn.Pipeline.Fsm

open Lib PlannerLemmas List Option

/-! ## One event at a time -/

/-- What becomes of an event that is handed in until it is processed. -/
inductive Reaction
  | panics
  | next (s : SectorInfo)
  /-- It is never processed, and no event behind it is. -/
  | held (s : SectorInfo)

/-- In `ReleaseSectorKeyFailed` no event counts as processed. It is handed in once more, and is
rejected there unless it is global. -/
def finish (e : Event) : Outcome → Reaction
  | .panics => .panics
  | .more s | .stop s =>
      if s.state = .packingFailed then .next { s with state := .dealsExpired }
      else if s.state = .releaseSectorKeyFailed ∧ e.isGlobal = true then .held s
      else .next s
  | .reject s => .next s
  | .keep s => .held s

/-- The round in which the event is planned on its own. In a state without a planner nothing is done
with an event that is not global. -/
def round (s : SectorInfo) (e : Event) : Outcome :=
  match fsmPlanners s.state with
  | some p => p.body s e
  | none => if e.isGlobal then .stop (e.applyGlobal s).1 else .keep s

def react (s : SectorInfo) (e : Event) : Reaction := finish e (round s e)

/-- Where the events lead, each planned in the state the ones before it have led to. -/
def fate (s : SectorInfo) : List Event → Option SectorInfo
  | [] => some s
  | e :: es =>
      match react s e with
      | .panics => none
      | .held s' => some s'
      | .next s' => fate s' es

/-! ## The condition -/

/-- In a state that `planCommitting` has gone on to, it leaves the event, or does with it what the
planner of the state does: that one has the move too, or rejects an event that changes nothing. -/
def Agrees (s : SectorInfo) : Event → Bool
  | .sectorCommitted proof =>
      s.state = .committing || s.state = .submitCommit && s.proof = proof
  | .sectorProofReady proof =>
      s.state = .committing || s.state = .commitFinalize && s.proof = proof
  | .sectorSeedReady value epoch =>
      s.state = .committing || epoch = s.seedEpoch && value = s.seedValue
  | .sectorComputeProofFailed => s.state ∈ [.committing, .computeProofFailed]
  | .sectorRemoteCommit1Failed | .sectorRemoteCommit2Failed =>
      s.state ∈ [.committing, .remoteCommitFailed]
  | .sectorSealPreCommit1Failed =>
      s.state ∈ [.committing, .sealPreCommit1Failed] ||
        s.state ∈ [.computeProofFailed, .commitFailed] && s.invalidProofs = 0 &&
          s.preCommit2Fails = 0
  | .sectorCommitFailed => s.state ∈ [.committing, .commitFailed, .submitCommit, .commitWait]
  | .sectorRetryCommitWait => s.state ∈ [.committing, .commitWait, .commitFailed]
  | _ => true

/-- Whether a call of `planCommitting` can go on after the event; `ahead` if one can have come to
it. -/
def overruns (ahead : Bool) (s : SectorInfo) (e : Event) : Bool :=
  (ahead || s.state = .committing) &&
    match planCommittingBody s e with
    | .more _ => true
    | _ => false

/-- The first of the events that is not ignored is global. -/
def GlobalNext : List Event → Prop
  | [] => True
  | e :: es => if e.isIgnorable then GlobalNext es else e.isGlobal = true

instance GlobalNext.instDecidable : ∀ es, Decidable (GlobalNext es)
  | [] => isTrue trivial
  | e :: es =>
      have := instDecidable es
      inferInstanceAs (Decidable (if e.isIgnorable then GlobalNext es else e.isGlobal = true))

/-- What keeps a call with the event and the ones behind it from making a difference: a call that
begins in `PackingFailed` with an ignored event does not end with an error, and a call that finds no
planner for more than one event has not missed anything. -/
def Separable (s : SectorInfo) (e : Event) (es : List Event) : Prop :=
  (s.state = .packingFailed → e.isIgnorable = true → GlobalNext es) ∧
    ((fsmPlanners s.state).isNone = true → e.isGlobal = true →
      ∀ n < es.length, fate s (e :: es.take (n + 1)) = some s)

instance (s : SectorInfo) (e : Event) (es : List Event) : Decidable (Separable s e es) :=
  inferInstanceAs (Decidable (_ ∧ _))

/-- Along the events, planned one at a time: where a call of `planCommitting` can have gone on to an
event it agrees, and the event is separable from the ones behind it. -/
def Steady (ahead : Bool) (s : SectorInfo) : List Event → Prop
  | [] => True
  | e :: es =>
      (ahead = true → Agrees s e) ∧ Separable s e es ∧ match react s e with
        | .next s' => Steady (overruns ahead s e) s' es
        | _ => True

instance Steady.instDecidable : ∀ ahead s es, Decidable (Steady ahead s es)
  | _, _, [] => isTrue trivial
  | ahead, s, e :: es =>
      have : Decidable (match react s e with
          | .next s' => Steady (overruns ahead s e) s' es
          | _ => True) :=
        match react s e with
        | .next s' => instDecidable (overruns ahead s e) s' es
        | .panics => isTrue trivial
        | .held _ => isTrue trivial
      inferInstanceAs (Decidable (_ ∧ _ ∧ _))

namespace BatchingLemmas

open Planner

variable {p : Planner} {ahead : Bool} {s s' s₁ : SectorInfo} {e : Event}
  {pre post es rest : List Event}

/-! ## Planning as the state would -/

/-- A call of the planner can be at the sector, and as far as it is steady plans as the planner of
its state does. -/
inductive Attuned : Planner → Bool → SectorInfo → Prop
  | own {p : Planner} {ahead : Bool} {s : SectorInfo} : p ≠ .planCommitting →
      fsmPlanners s.state = some p → Attuned p ahead s
  | committing {ahead : Bool} {s : SectorInfo} : s.state ∈ committingStates →
      s.state = .committing ∨ ahead = true → Attuned .planCommitting ahead s

section

variable (hp : fsmPlanners s.state = some p)
include hp

theorem attuned_of_planner : Attuned p ahead s := by
  by_cases hcommitting : p = .planCommitting
  · subst hcommitting
    have hstate : s.state = .committing := by
      generalize s.state = q at hp
      cases q with
      | committing => rfl
      | _ => cases hp
    exact .committing (hstate ▸ mem_cons_self) (.inl hstate)
  · exact .own hcommitting hp

theorem round_of_planner : round s e = p.body s e := by
  unfold round
  rw [hp]

theorem react_of_planner : react s e = finish e (p.body s e) := by
  unfold react
  rw [round_of_planner hp]

end

/-- `Agrees` compares `planCommitting` with the table of the state. -/
theorem agrees_iff (hs : s.state ∈ committingStates) : Agrees s e = true ↔
    (∃ s', planCommittingBody s e = .keep s') ∨ react s e = finish e (planCommittingBody s e) := by
  cases s
  simp only [committingStates, mem_cons, not_mem_nil, or_false] at hs
  cases e with
  | sectorCommitted | sectorProofReady | sectorSeedReady | sectorComputeProofFailed
  | sectorRemoteCommit1Failed | sectorRemoteCommit2Failed | sectorSealPreCommit1Failed
  | sectorCommitFailed | sectorRetryCommitWait =>
    rcases hs with rfl | rfl | rfl | rfl | rfl | rfl | rfl | rfl <;>
    simp [Agrees, react, round, fsmPlanners, planCommittingBody, Planner.body, planOneBody, finish,
      Event.isGlobal, Event.type, Event.apply, Event.isIgnorable, on, onWithCB, Next.run] <;>
    grind
  | sectorRestart | sectorFatalError | sectorForceState | sectorTerminate | sectorRemove =>
    rcases hs with rfl | rfl | rfl | rfl | rfl | rfl | rfl | rfl <;>
    exact iff_of_true rfl (.inr rfl)
  | _ => exact iff_of_true rfl (.inl ⟨_, rfl⟩)

theorem react_of_attuned (h : Attuned p ahead s) (hsteady : Steady ahead s (e :: es))
    (hkeep : ∀ s', p.body s e ≠ .keep s') : react s e = finish e (p.body s e) := by
  cases h with
  | own _ hp => exact react_of_planner hp
  | committing hmem hover =>
    rcases hover with hstate | rfl
    · exact react_of_planner (by rw [hstate]; rfl)
    · exact ((agrees_iff hmem).mp (hsteady.1 rfl)).resolve_left fun ⟨s', hbody⟩ => hkeep s' hbody

theorem finish_more (hpacking : s.state ≠ .packingFailed)
    (hrelease : s.state = .releaseSectorKeyFailed → e.isGlobal = false) :
    finish e (.more s) = .next s := by
  unfold finish
  dsimp only
  rw [if_neg hpacking, if_neg]
  rintro ⟨hstate, hglobal⟩
  rw [hrelease hstate] at hglobal
  cases hglobal

theorem ne_of_mem_committingStates {q : SectorState} (h : q ∈ committingStates) :
    q ≠ .packingFailed ∧ q ≠ .releaseSectorKeyFailed := by
  constructor
  · rintro rfl
    exact absurd h (by decide)
  · rintro rfl
    exact absurd h (by decide)

theorem ne_packingFailed (hstate : s'.state = s.state ∨ s'.state ∈ committingStates)
    (hpacking : s.state ≠ .packingFailed) : s'.state ≠ .packingFailed := by
  rcases hstate with hstate | hmem
  · rw [hstate]
    exact hpacking
  · exact (ne_of_mem_committingStates hmem).1

/-- At an event where the call goes on, the planner of the state comes to the same sector. -/
theorem attuned_more (h : Attuned p ahead s) (hsteady : Steady ahead s (e :: es))
    (hpacking : s.state ≠ .packingFailed) (hbody : p.body s e = .more s₁) :
    react s e = .next s₁ ∧ Attuned p (overruns ahead s e) s₁ ∧
      Steady (overruns ahead s e) s₁ es ∧ (s₁.state = s.state ∨ s₁.state ∈ committingStates) := by
  have hfinish : finish e (.more s₁) = .next s₁ ∧ Attuned p (overruns ahead s e) s₁ ∧
      (s₁.state = s.state ∨ s₁.state ∈ committingStates) := by
    cases h with
    | own hcommitting hp =>
      rcases body_eq_more hp hcommitting hbody with ⟨hremoved, rfl⟩ | hone
      · refine ⟨finish_more hpacking fun hstate => ?_, .own hcommitting hp, .inl rfl⟩
        rw [hstate, hremoved] at hp
        cases hp
      · obtain ⟨hevent, hstate⟩ := planOne_more hp hone
        refine ⟨finish_more (hstate ▸ hpacking) fun _ => ?_, .own hcommitting (hstate ▸ hp),
          .inl hstate⟩
        rcases hevent with ⟨rfl, -⟩ | ⟨now, rfl⟩
        · rfl
        · rfl
    | committing hmem hover =>
      obtain ⟨-, hmem'⟩ := planCommitting_more hmem hbody
      obtain ⟨hpacking', hrelease⟩ := ne_of_mem_committingStates hmem'
      refine ⟨finish_more hpacking' fun hstate => absurd hstate hrelease,
        .committing hmem' (.inr ?_), .inr hmem'⟩
      have hmore : planCommittingBody s e = .more s₁ := hbody
      unfold overruns
      rw [hmore]
      rcases hover with hstate | rfl
      · simp [hstate]
      · rfl
  obtain ⟨hfinish, hattuned, hstate⟩ := hfinish
  have hreact : react s e = .next s₁ := by
    rw [react_of_attuned h hsteady (fun _ hkeep => by cases hbody.symm.trans hkeep), hbody, hfinish]
  refine ⟨hreact, hattuned, ?_, hstate⟩
  have hrest := hsteady.2.2
  rw [hreact] at hrest
  exact hrest

theorem steady_mono {ahead' : Bool} (h : ahead' = true → ahead = true)
    (hsteady : Steady ahead s es) : Steady ahead' s es := by
  induction es generalizing s ahead ahead' with
  | nil => trivial
  | cons e es ih =>
    obtain ⟨hagrees, hseparable, hrest⟩ := hsteady
    refine ⟨fun hover => hagrees (h hover), hseparable, ?_⟩
    cases hreact : react s e with
    | next s' =>
      rw [hreact] at hrest
      refine ih (fun hover => ?_) hrest
      unfold overruns at hover ⊢
      rw [Bool.and_eq_true, Bool.or_eq_true] at hover ⊢
      exact ⟨hover.1.imp_left h, hover.2⟩
    | panics => trivial
    | held s' => trivial

theorem steady_false (hsteady : Steady ahead s es) : Steady false s es := steady_mono nofun hsteady

/-! ## Events that are handed in again in `ReleaseSectorKeyFailed` -/

theorem planner_release (hs : s.state = .releaseSectorKeyFailed) :
    fsmPlanners s.state = some (.planOne [on .sectorUpdateActive .releaseSectorKey]) := by
  rw [hs]
  rfl

theorem body_release (hglobal : e.isGlobal = false) (htype : e.type ≠ .sectorUpdateActive) :
    planOneBody [on .sectorUpdateActive .releaseSectorKey] s e =
      if e.isIgnorable then .more s else .reject s := by
  unfold planOneBody
  rw [hglobal, if_neg Bool.false_ne_true,
    find?_cons_of_neg fun h => htype (of_decide_eq_true h).symm, find?_nil]

section

variable (hs : s.state = .releaseSectorKeyFailed)
include hs

/-- An event that is not global is passed by. -/
theorem react_release (hglobal : e.isGlobal = false)
    (htype : e.type ≠ .sectorUpdateActive) : react s e = .next s := by
  have hround : (planOne [on .sectorUpdateActive .releaseSectorKey]).body s e =
      if e.isIgnorable then .more s else .reject s := body_release hglobal htype
  rw [react_of_planner (planner_release hs), hround]
  split
  · exact finish_more (by rw [hs]; decide) fun _ => hglobal
  · rfl

theorem finish_stop_held (hglobal : e.isGlobal = true) : finish e (.stop s) = .held s := by
  unfold finish
  dsimp only
  rw [if_neg (by rw [hs]; decide), if_pos ⟨hs, hglobal⟩]

theorem react_release_global (hglobal : e.isGlobal = true)
    (hself : (e.applyGlobal s).1 = s) : react s e = finish e (.stop s) := by
  have hround : (planOne [on .sectorUpdateActive .releaseSectorKey]).body s e =
      .stop (e.applyGlobal s).1 := if_pos hglobal
  rw [react_of_planner (planner_release hs), hround, hself]

theorem react_release_restart : react s .sectorRestart = .held s := by
  rw [react_release_global hs rfl rfl, finish_stop_held hs rfl]

end

theorem applyGlobal_idem : (e.applyGlobal (e.applyGlobal s).1).1 = (e.applyGlobal s).1 := by
  cases e with
  | _ => rfl

theorem applyGlobal_eq_self (h : (e.applyGlobal s).1.state = s.state) :
    (e.applyGlobal s).1 = s := by
  cases e with
  | sectorForceState | sectorTerminate | sectorRemove =>
    cases s
    cases h
    rfl
  | _ => rfl

/-- An event that is not global and leads to `ReleaseSectorKeyFailed` is rejected there. -/
theorem stop_of_not_global (h : Attuned p ahead s) (hglobal : e.isGlobal = false)
    (hbody : p.body s e = .stop s') (hs' : s'.state = .releaseSectorKeyFailed) :
    p ≠ .planCommitting ∧ e.type ≠ .sectorUpdateActive := by
  cases h with
  | own hcommitting hp =>
    refine ⟨hcommitting, fun htype => ?_⟩
    have hactive := planOne_updateActive (s := s) hp htype hglobal
    cases p with
    | planOne ts =>
      have hone : planOneBody ts s e = .stop s' := hbody
      rcases hactive with ⟨s₁, hstop, hstate⟩ | hpanics | hreject
      · obtain rfl := Outcome.stop.inj (hone.symm.trans hstop)
        rw [hs'] at hstate
        cases hstate
      · cases hone.symm.trans hpanics
      · cases hone.symm.trans hreject
    | planOneOrIgnore ts =>
      have hone : ignoring (planOneBody ts s e) = .stop s' := hbody
      rcases hactive with ⟨s₁, hstop, hstate⟩ | hpanics | hreject
      · rw [show planOneBody ts s e = .stop s₁ from hstop] at hone
        obtain rfl := Outcome.stop.inj hone
        rw [hs'] at hstate
        cases hstate
      · rw [show planOneBody ts s e = .panics from hpanics] at hone
        cases hone
      · rw [show planOneBody ts s e = .reject s from hreject] at hone
        obtain rfl := Outcome.stop.inj hone
        rw [hs'] at hp
        cases hp
    | planCommitting => exact hcommitting rfl
    | final =>
      have hround : (if e.isGlobal then Outcome.stop (e.applyGlobal s).1 else .keep s) =
          .stop s' := hbody
      rw [hglobal, if_neg Bool.false_ne_true] at hround
      cases hround
    | finalRemoved => cases hbody
  | committing =>
    rcases planCommitting_stop hbody with ⟨hglobal', -⟩ | ⟨-, hstate⟩
    · rw [hglobal] at hglobal'
      cases hglobal'
    · rw [hs'] at hstate
      cases hstate

theorem finish_stop : finish e (.stop s) = finish e (.more s) := rfl

/-- At which events a call can go on before it leads to `ReleaseSectorKeyFailed`. -/
def Replayed (p : Planner) (e : Event) : Prop :=
  e.isGlobal = false ∧ e.type ≠ .sectorUpdateActive ∨ p = .planCommitting ∧ e = .sectorRestart

theorem replayed_of_more (h : Attuned p ahead s) (hremoved : p ≠ .finalRemoved)
    (hbody : p.body s e = .more s₁) : Replayed p e := by
  cases h with
  | own hcommitting hp =>
    rcases body_eq_more hp hcommitting hbody with ⟨hremoved', -⟩ | hone
    · exact absurd hremoved' hremoved
    · refine .inl ?_
      rcases (planOne_more hp hone).1 with ⟨rfl, -⟩ | ⟨now, rfl⟩
      · exact ⟨rfl, nofun⟩
      · exact ⟨rfl, nofun⟩
  | committing hmem _ =>
    rcases (planCommitting_more hmem hbody).1 with hrestart | hevent
    · exact .inr ⟨rfl, hrestart⟩
    · exact .inl hevent

/-- Events at which a call goes on are events that lead to where it has come to. -/
theorem fate_mores (hmores : Mores p.body s es s') (h : Attuned p ahead s)
    (hsteady : Steady ahead s (es ++ rest)) (hclear : es ≠ [] → s.state ≠ .packingFailed) :
    (∃ ahead', Attuned p ahead' s' ∧ Steady ahead' s' rest ∧ fate s (es ++ rest) = fate s' rest ∧
      (s'.state = s.state ∨ s'.state ∈ committingStates)) ∧
      (p ≠ .finalRemoved → ∀ x ∈ es, Replayed p x) := by
  induction hmores generalizing ahead with
  | nil => exact ⟨⟨ahead, h, hsteady, rfl, .inl rfl⟩, fun _ => forall_mem_nil _⟩
  | cons hbody _ ih =>
    have hpacking := hclear (cons_ne_nil _ _)
    obtain ⟨hreact, hattuned, hrest, hstate⟩ := attuned_more h hsteady hpacking hbody
    obtain ⟨⟨ahead', hattuned', hsteady', hfate, hstate'⟩, hreplayed⟩ :=
      ih hattuned hrest fun _ => ne_packingFailed hstate hpacking
    refine ⟨⟨ahead', hattuned', hsteady', ?_, ?_⟩, fun hremoved =>
      forall_mem_cons.mpr ⟨replayed_of_more h hremoved hbody, hreplayed hremoved⟩⟩
    · rw [cons_append, fate, hreact]
      exact hfate
    · rcases hstate' with hstate' | hmem
      · rw [hstate']
        exact hstate
      · exact .inr hmem

section

variable (hs : s.state = .releaseSectorKeyFailed)
include hs

/-- Handing in again the events that a call went on at changes nothing, unless one of them is a
restart, which is held. -/
theorem fate_replayed (hes : ∀ x ∈ es, Replayed p x) (rest : List Event) :
    fate s (es ++ rest) = fate s rest ∨ p = .planCommitting ∧ fate s (es ++ rest) = some s := by
  induction es with
  | nil => exact .inl rfl
  | cons x es ih =>
    obtain ⟨hx, hes⟩ := forall_mem_cons.mp hes
    rw [cons_append, fate]
    rcases hx with ⟨hglobal, htype⟩ | ⟨hp, rfl⟩
    · rw [react_release hs hglobal htype]
      exact ih hes
    · rw [react_release_restart hs]
      exact .inr ⟨hp, rfl⟩

theorem overruns_release : overruns false s e = false := by
  unfold overruns
  rw [hs]
  rfl

theorem separable_release : Separable s e es := by
  constructor
  · intro hpacking
    rw [hs] at hpacking
    cases hpacking
  · intro hnone
    rw [hs] at hnone
    cases hnone

theorem steady_replayed (hes : ∀ x ∈ es, Replayed p x) (hrest : Steady false s rest) :
    Steady false s (es ++ rest) := by
  induction es with
  | nil => exact hrest
  | cons x es ih =>
    obtain ⟨hx, hes⟩ := forall_mem_cons.mp hes
    refine ⟨nofun, separable_release hs, ?_⟩
    rcases hx with ⟨hglobal, htype⟩ | ⟨hp, rfl⟩
    · rw [react_release hs hglobal htype, overruns_release hs]
      exact ih hes
    · rw [react_release_restart hs]
      trivial

end

/-! ## Calls -/

/-- The next event to be planned is the one the call has processed. -/
theorem advance (hsteady : Steady ahead s (e :: es)) (hreact : react s e = .next s₁) :
    Steady false s₁ es ∧ fate s (e :: es) = fate s₁ es := by
  have hrest := hsteady.2.2
  rw [hreact] at hrest
  refine ⟨steady_false hrest, ?_⟩
  rw [fate, hreact]

theorem finish_stop_next (hs : s.state ≠ .releaseSectorKeyFailed) (n : Nat) :
    finish e (.stop s) = .next (decideNext ⟨s, n, false⟩).1 ∧ (decideNext ⟨s, n, false⟩).2 = n := by
  unfold finish decideNext
  dsimp only
  split
  · exact ⟨rfl, rfl⟩
  · rw [if_neg fun h => hs h.1]
    exact ⟨rfl, rfl⟩

/-- Handing the events in again brings a sector closer to the end when it enters
`ReleaseSectorKeyFailed`. -/
def rank (s : SectorInfo) : Nat := if s.state = .releaseSectorKeyFailed then 0 else 1

theorem rank_lt (hs : s.state ≠ .releaseSectorKeyFailed)
    (hs' : s'.state = .releaseSectorKeyFailed) : rank s' < rank s := by
  unfold rank
  rw [if_pos hs', if_neg hs]
  exact Nat.zero_lt_one

theorem mores_release (hs : s.state = .releaseSectorKeyFailed)
    (hmores : Mores (Planner.planOne [on .sectorUpdateActive .releaseSectorKey]).body s es s')
    (hsteady : Steady ahead s (es ++ rest)) : s' = s := by
  induction hmores generalizing ahead with
  | nil => rfl
  | @cons s s₁ s' e es hbody _ ih =>
    have hattuned : Attuned _ ahead s := attuned_of_planner (planner_release hs)
    obtain ⟨hreact, -, hrest, -⟩ := attuned_more hattuned hsteady (by rw [hs]; decide) hbody
    have hs₁ : s₁ = s := by
      rcases replayed_of_more hattuned nofun hbody with ⟨hglobal, htype⟩ | ⟨hcommitting, -⟩
      · exact Reaction.next.inj (hreact.symm.trans (react_release hs hglobal htype))
      · cases hcommitting
    subst hs₁
    exact ih hs hrest

/-- What is to be shown of a call on the events `es`. -/
abbrev Absorbed := Absorbs plan fate (Steady false) rank

/-- A call that goes on to the end of the events. -/
theorem absorbs_mores (hp : fsmPlanners s.state = some p) (hpacking : s.state ≠ .packingFailed)
    (hes : es ≠ []) (hmores : Mores p.body s es s')
    (hloop : loop p.body 0 es s = some ⟨s', 0 + es.length, false⟩)
    (hsteady : Steady false s (es ++ rest)) :
    Absorbed s es rest := by
  have hplan : plan es s = some (decideNext ⟨s', es.length, false⟩) := by
    rw [plan_eq hp hes, hloop, zero_add]
    rfl
  obtain ⟨⟨ahead', -, hsteady', hfate, hstate⟩, hreplayed⟩ :=
    fate_mores hmores (attuned_of_planner hp) hsteady fun _ => hpacking
  by_cases hs' : s'.state = .releaseSectorKeyFailed
  · have hs : s.state = .releaseSectorKeyFailed := by
      rcases hstate with hstate | hmem
      · rw [← hstate, hs']
      · exact absurd hs' (ne_of_mem_committingStates hmem).2
    obtain rfl := mem_unique hp (planner_release hs)
    obtain rfl := mores_release hs hmores hsteady
    have hzero := decideNext_release hs es.length
    refine absorbs_of_some (hplan.trans (congrArg some hzero)) hsteady rfl fun _ => .inl ⟨rfl, ?_⟩
    rcases fate_replayed hs (hreplayed nofun) [] with hall | ⟨-, hall⟩
    · rwa [append_nil] at hall
    · rwa [append_nil] at hall
  · have hpacking' := ne_packingFailed hstate hpacking
    have hall := decideNext_eq hpacking' hs' es.length
    refine absorbs_of_some (hplan.trans (congrArg some hall)) ?_ ?_ fun hzero => ?_
    · rw [drop_length, nil_append]
      exact steady_false hsteady'
    · rw [drop_length, nil_append, hfate]
    · exact absurd (length_eq_zero_iff.mp hzero) hes

/-- A call that processes the events up to `e` and leads to `s₁` there. -/
theorem absorbs_next (hplan : plan (pre ++ e :: post) s = some (s₁, pre.length + 1))
    (hsteady : Steady ahead s' (e :: post ++ rest)) (hreact : react s' e = .next s₁)
    (hfate : fate s (pre ++ (e :: post ++ rest)) = fate s' (e :: post ++ rest)) :
    Absorbed s (pre ++ e :: post) rest := by
  rw [cons_append] at hsteady
  obtain ⟨hsteady', hfate'⟩ := advance hsteady hreact
  have hdrop : (pre ++ e :: post).drop (pre.length + 1) = post := by
    rw [append_cons]
    exact drop_left' (by rw [length_append]; rfl)
  refine absorbs_of_some hplan ?_ ?_ nofun
  · rw [hdrop]
    exact hsteady'
  · rw [hdrop, append_assoc, hfate]
    exact hfate'.symm

variable (p s pre) in
/-- What there is to know about the events that a call has gone on at and the event at which it has
led to `ReleaseSectorKeyFailed`, where they are handed in again. -/
structure Replays (e : Event) (post : List Event) (s₁ : SectorInfo) : Prop where
  react_eq : react s₁ e = finish e (.stop s₁)
  replayed : ∀ x ∈ pre, Replayed p x
  global : p = .planCommitting → e.isGlobal = true
  progress : s₁ = s ∧ fate s (pre ++ e :: post) = some s ∨ s.state ≠ .releaseSectorKeyFailed

section

variable (hsteady : Steady ahead s' (e :: post ++ rest)) (hreact : react s' e = finish e (.stop s₁))
  (hfate : fate s (pre ++ (e :: post ++ rest)) = fate s' (e :: post ++ rest))
include hsteady hreact hfate

/-- A call that leads to `ReleaseSectorKeyFailed`. -/
theorem absorbs_release (hs₁ : s₁.state = .releaseSectorKeyFailed)
    (hplan : plan (pre ++ e :: post) s = some (s₁, 0)) (hreplays : Replays p s pre e post s₁) :
    Absorbed s (pre ++ e :: post) rest := by
  obtain ⟨hreact₁, hreplayed, hglobal, hprogress⟩ := hreplays
  -- from here on the events do in the new state what they have done
  have hsame : fate s₁ (e :: post ++ rest) = fate s' (e :: post ++ rest) := by
    rw [cons_append, fate, fate, hreact, hreact₁]
  have hsteady₁ : Steady false s₁ (e :: post ++ rest) := by
    refine ⟨nofun, separable_release hs₁, ?_⟩
    have hrest := hsteady.2.2
    rw [hreact] at hrest
    rw [hreact₁]
    cases hnext : finish e (.stop s₁) with
    | next s₂ =>
      rw [hnext] at hrest
      rw [overruns_release hs₁]
      exact steady_false hrest
    | panics => trivial
    | held s₂ => trivial
  refine absorbs_of_some hplan ?_ ?_ fun _ => ?_
  · rw [drop_zero, append_assoc]
    exact steady_replayed hs₁ hreplayed hsteady₁
  · rw [drop_zero, append_assoc, hfate, ← hsame]
    rcases fate_replayed hs₁ hreplayed (e :: post ++ rest) with hfate₁ | ⟨hcommitting, hfate₁⟩
    · exact hfate₁
    · rw [hfate₁, cons_append, fate, hreact₁, finish_stop_held hs₁ (hglobal hcommitting)]
  · exact hprogress.imp_right fun hs => rank_lt hs hs₁

/-- A call that stops at the event `e`, where the planner of the state does as well. -/
theorem absorbs_stop
    (hplan : plan (pre ++ e :: post) s = some (decideNext ⟨s₁, pre.length + 1, false⟩))
    (hreplays : s₁.state = .releaseSectorKeyFailed → Replays p s pre e post s₁) :
    Absorbed s (pre ++ e :: post) rest := by
  by_cases hs₁ : s₁.state = .releaseSectorKeyFailed
  · have hzero := decideNext_release hs₁ (pre.length + 1)
    exact absorbs_release hsteady hreact hfate hs₁ (hplan.trans (congrArg some hzero))
      (hreplays hs₁)
  · obtain ⟨hfinish, hcount⟩ := finish_stop_next (e := e) hs₁ (pre.length + 1)
    have hpair : decideNext ⟨s₁, pre.length + 1, false⟩ =
        ((decideNext ⟨s₁, pre.length + 1, false⟩).1, pre.length + 1) := Prod.ext rfl hcount
    exact absorbs_next (hplan.trans (congrArg some hpair)) hsteady (hreact.trans hfinish) hfate

end

theorem replays_of_mores (hp : fsmPlanners s.state = some p) (hmores : Mores p.body s pre s')
    (hreplayed : p ≠ .finalRemoved → ∀ x ∈ pre, Replayed p x)
    (hattuned : Attuned p ahead s') (hbody : p.body s' e = .stop s₁)
    (hs₁ : s₁.state = .releaseSectorKeyFailed)
    (hsteady : Steady false s (pre ++ (e :: post ++ rest)))
    (hreact : react s' e = finish e (.stop s₁)) : Replays p s pre e post s₁ := by
  have hremoved : p ≠ .finalRemoved := by
    rintro rfl
    cases hbody
  have hreplayed := hreplayed hremoved
  refine ⟨?_, hreplayed, fun hcommitting => ?_, ?_⟩
  · -- the last event does in `ReleaseSectorKeyFailed` what it has done
    cases hglobal : e.isGlobal with
    | true =>
      have heq := stop_of_global hglobal hbody
      exact react_release_global hs₁ hglobal (by rw [heq, applyGlobal_idem])
    | false =>
      obtain ⟨-, htype⟩ := stop_of_not_global hattuned hglobal hbody hs₁
      rw [react_release hs₁ hglobal htype, finish_stop,
        finish_more (by rw [hs₁]; decide) fun _ => hglobal]
  · by_contra hglobal
    rw [Bool.not_eq_true] at hglobal
    exact (stop_of_not_global hattuned hglobal hbody hs₁).1 hcommitting
  by_cases hs : s.state = .releaseSectorKeyFailed
  · -- the sector was there before, and the event is held
    obtain rfl := mem_unique hp (planner_release hs)
    obtain rfl := mores_release hs hmores hsteady
    have hglobal : e.isGlobal = true := by
      by_contra hglobal
      rw [Bool.not_eq_true] at hglobal
      obtain ⟨-, htype⟩ := stop_of_not_global hattuned hglobal hbody hs₁
      have hround := (body_release hglobal htype).symm.trans hbody
      split at hround
      · cases hround
      · cases hround
    have heq := stop_of_global hglobal hbody
    have hself : s₁ = s' := by
      rw [heq]
      exact applyGlobal_eq_self (by rw [← heq, hs₁, hs])
    subst hself
    refine .inl ⟨rfl, ?_⟩
    rcases fate_replayed hs₁ hreplayed (e :: post) with hfate₁ | ⟨-, hfate₁⟩
    · rw [hfate₁, fate, hreact, finish_stop_held hs₁ hglobal]
    · exact hfate₁
  · exact .inr hs

/-- A call that returns at the event `e`. -/
theorem absorbs_leaves (hp : fsmPlanners s.state = some p) (hmores : Mores p.body s pre s')
    (hclear : pre ≠ [] → s.state ≠ .packingFailed)
    (hleaves : Leaves (0 + pre.length) (p.body s' e) (loop p.body 0 (pre ++ e :: post) s))
    (hsteady : Steady false s (pre ++ e :: post ++ rest)) :
    Absorbed s (pre ++ e :: post) rest := by
  have hplan := plan_eq hp (show pre ++ e :: post ≠ [] by simp)
  rw [append_assoc] at hsteady
  obtain ⟨⟨ahead', hattuned, hsteady', hfate, -⟩, hreplayed⟩ :=
    fate_mores hmores (attuned_of_planner hp) hsteady hclear
  have hreact := react_of_attuned hattuned hsteady'
  rw [zero_add] at hleaves
  generalize hloop : loop p.body 0 (pre ++ e :: post) s = result at hleaves
  generalize hbody : p.body s' e = outcome at hleaves
  rw [hbody] at hreact
  rw [hloop] at hplan
  cases hleaves with
  | panics =>
    refine absorbs_of_none hplan ?_
    rw [append_assoc, hfate, cons_append, fate, hreact fun _ hkeep => by cases hkeep]
    rfl
  | reject => exact absorbs_next hplan hsteady' (hreact fun _ hkeep => by cases hkeep) hfate
  | @keep s₁ =>
    obtain rfl := body_eq_keep hbody
    refine absorbs_of_some hplan ?_ ?_ fun hzero => ?_
    · rw [drop_left]
      exact steady_false hsteady'
    · rw [drop_left, append_assoc]
      exact hfate.symm
    · obtain rfl := length_eq_zero_iff.mp hzero
      cases hmores
      refine .inl ⟨rfl, ?_⟩
      rw [nil_append, fate, react_of_planner hp, hbody]
      rfl
  | stop =>
    replace hreact := hreact fun _ hkeep => by cases hkeep
    exact absorbs_stop hsteady' hreact hfate hplan fun hs₁ =>
      replays_of_mores hp hmores hreplayed hattuned hbody hs₁ hsteady hreact

/-! ## Calls in `PackingFailed` -/

/-- What is decided about a sector in `PackingFailed`. -/
def expired (s : SectorInfo) : SectorInfo := { s with state := .dealsExpired }

theorem planner_packing (hs : s.state = .packingFailed) :
    fsmPlanners s.state = some (.planOne []) := by
  rw [hs]
  rfl

theorem body_nil : (Planner.planOne []).body s e =
    if e.isGlobal then .stop (e.applyGlobal s).1 else if e.isIgnorable then .more s
    else .reject s := rfl

theorem body_nil_ignored (h : e.isIgnorable = true) : (Planner.planOne []).body s e = .more s := by
  rw [eq_of_isIgnorable h]
  rfl

theorem react_packing_ignored (hs : s.state = .packingFailed) (h : e.isIgnorable = true) :
    react s e = .next (expired s) := by
  rw [react_of_planner (planner_packing hs), body_nil_ignored h]
  unfold finish
  dsimp only
  rw [if_pos hs]
  rfl

theorem react_expired_ignored (h : e.isIgnorable = true) :
    react (expired s) e = .next (expired s) := by
  have hp : fsmPlanners (expired s).state = some (.planOne []) := rfl
  rw [react_of_planner hp, body_nil_ignored h]
  exact finish_more nofun nofun

theorem mores_nil (hmores : Mores (Planner.planOne []).body s es s') :
    s' = s ∧ ∀ x ∈ es, x.isIgnorable = true := by
  induction hmores with
  | nil => exact ⟨rfl, fun _ hx => nomatch hx⟩
  | @cons s s₁ s' e es hbody _ ih =>
    obtain ⟨rfl, hes⟩ := ih
    rw [body_nil] at hbody
    split at hbody
    · cases hbody
    split at hbody
    · next hignorable =>
      cases hbody
      exact ⟨rfl, forall_mem_cons.mpr ⟨hignorable, hes⟩⟩
    · cases hbody

theorem expired_ignored (hes : ∀ x ∈ es, x.isIgnorable = true) :
    fate (expired s) (es ++ rest) = fate (expired s) rest ∧
      (Steady ahead (expired s) (es ++ rest) → Steady false (expired s) rest) := by
  induction es generalizing ahead with
  | nil => exact ⟨rfl, steady_false⟩
  | cons x es ih =>
    obtain ⟨hx, hes⟩ := forall_mem_cons.mp hes
    rw [cons_append, fate, Steady, react_expired_ignored hx]
    exact (ih hes).imp_right fun h hsteady => h hsteady.2.2

/-- One at a time, the first ignored event takes a sector out of `PackingFailed`. -/
theorem packing_ignored (hs : s.state = .packingFailed) (hne : es ≠ [])
    (hes : ∀ x ∈ es, x.isIgnorable = true) : fate s (es ++ rest) = fate (expired s) rest ∧
      (Steady false s (es ++ rest) → Steady false (expired s) rest) := by
  obtain ⟨x, es, rfl⟩ := exists_cons_of_ne_nil hne
  obtain ⟨hx, hes⟩ := forall_mem_cons.mp hes
  rw [cons_append, fate, Steady, react_packing_ignored hs hx]
  exact (expired_ignored hes).imp_right fun h hsteady => h hsteady.2.2

theorem globalNext_append (hes : ∀ x ∈ es, x.isIgnorable = true) :
    GlobalNext (es ++ rest) ↔ GlobalNext rest := by
  induction es with
  | nil => rfl
  | cons x es ih =>
    obtain ⟨hx, hes⟩ := forall_mem_cons.mp hes
    rw [cons_append, GlobalNext, if_pos hx]
    exact ih hes

/-- A global event does the same before the sector has left `PackingFailed` and after. -/
theorem finish_expired (hs : s.state = .packingFailed) (hglobal : e.isGlobal = true) :
    finish e (.stop (e.applyGlobal (expired s)).1) = finish e (.stop (e.applyGlobal s).1) := by
  have hstay : finish e (.stop (expired s)) = finish e (.stop s) := by
    have hs' : (expired s).state ≠ .packingFailed := nofun
    unfold finish
    dsimp only
    rw [if_pos hs, if_neg hs', if_neg nofun]
    rfl
  cases e with
  | sectorRestart => exact hstay
  | sectorFatalError => exact hstay
  | sectorForceState state => rfl
  | sectorTerminate => rfl
  | sectorRemove => rfl
  | _ => cases hglobal

/-- A call that has gone on in `PackingFailed`, and returns at the event `e`. -/
theorem absorbs_packing_leaves (hs : s.state = .packingFailed) (hne : pre ≠ [])
    (hpre : ∀ x ∈ pre, x.isIgnorable = true)
    (hleaves : Leaves (0 + pre.length) ((Planner.planOne []).body s e)
      (loop (Planner.planOne []).body 0 (pre ++ e :: post) s))
    (hsteady : Steady false s (pre ++ e :: post ++ rest)) :
    Absorbed s (pre ++ e :: post) rest := by
  have hplan := plan_eq (planner_packing hs) (show pre ++ e :: post ≠ [] by simp)
  rw [append_assoc] at hsteady
  obtain ⟨hfate, hsteady'⟩ := (packing_ignored hs hne hpre).imp_right (· hsteady)
  have hlate : e.isIgnorable = false := by
    by_contra hignorable
    rw [Bool.not_eq_false] at hignorable
    rw [body_nil_ignored hignorable] at hleaves
    cases hleaves
  -- the call would end with an error if the event were not global
  have hglobal : e.isGlobal = true := by
    obtain ⟨x, pre, rfl⟩ := exists_cons_of_ne_nil hne
    obtain ⟨hx, hpre⟩ := forall_mem_cons.mp hpre
    have hnext := (globalNext_append hpre).mp (hsteady.2.1.1 hs hx)
    rw [cons_append, GlobalNext, hlate, if_neg Bool.false_ne_true] at hnext
    exact hnext
  rw [body_nil, if_pos hglobal, zero_add] at hleaves
  generalize hloop : loop (planOne []).body 0 (pre ++ e :: post) s = result at hleaves
  cases hleaves
  rw [hloop] at hplan
  have hreact : react (expired s) e = finish e (.stop (e.applyGlobal s).1) := by
    have hp : fsmPlanners (expired s).state = some (.planOne []) := rfl
    rw [react_of_planner hp, body_nil, if_pos hglobal, finish_expired hs hglobal]
  have hreplays : (e.applyGlobal s).1.state = .releaseSectorKeyFailed →
      Replays (.planOne []) s pre e post (e.applyGlobal s).1 := fun hs₁ =>
    { react_eq := react_release_global hs₁ hglobal applyGlobal_idem
      replayed x hx := .inl (by rw [eq_of_isIgnorable (hpre x hx)]; exact ⟨rfl, nofun⟩)
      global := nofun
      progress := .inr (by rw [hs]; nofun) }
  exact absorbs_stop hsteady' hreact hfate hplan hreplays

theorem absorbs_packing (hs : s.state = .packingFailed)
    (hsteady : Steady false s (e :: es ++ rest)) :
    Absorbed s (e :: es) rest := by
  have hp := planner_packing hs
  rcases loop_cases (planOne []).body 0 (e :: es) s with
    ⟨s', hmores, hloop⟩ | ⟨pre, e', post, s', heq, hmores, hleaves⟩
  · obtain ⟨rfl, hes⟩ := mores_nil hmores
    obtain ⟨hfate, hsteady'⟩ := packing_ignored hs (cons_ne_nil e es) hes
    have hplan : plan (e :: es) s' = some (expired s', (e :: es).length) := by
      rw [plan_eq hp (cons_ne_nil e es), hloop, zero_add, map_some]
      unfold decideNext
      rw [if_neg Bool.false_ne_true, if_pos hs]
      rfl
    refine absorbs_of_some hplan ?_ ?_ nofun
    · rw [drop_length, nil_append]
      exact hsteady' hsteady
    · rw [drop_length, nil_append, hfate]
  · rw [heq] at hsteady hleaves ⊢
    by_cases hne : pre = []
    · exact absorbs_leaves hp hmores (absurd hne) hleaves hsteady
    · obtain ⟨rfl, hpre⟩ := mores_nil hmores
      exact absorbs_packing_leaves hs hne hpre hleaves hsteady

/-! ## Calls in a state without a planner -/

section

variable (hs : fsmPlanners s.state = none)
include hs

theorem round_unplanned :
    round s e = if e.isGlobal then .stop (e.applyGlobal s).1 else .keep s := by
  unfold round
  rw [hs]

theorem plan_unplanned (hes : e.isGlobal = false ∨ es ≠ []) : plan (e :: es) s = some (s, 0) := by
  have hplanner : plannerFor (e :: es) s = none := by
    unfold plannerFor
    rw [hs]
    cases es with
    | nil =>
      rcases hes with hglobal | hne
      · exact if_neg (by rw [hglobal]; exact Bool.false_ne_true)
      · exact absurd rfl hne
    | cons e' es => rfl
  unfold plan
  rw [hplanner]

theorem plan_unplanned_global (hglobal : e.isGlobal = true) :
    plan [e] s = some (decideNext ⟨(e.applyGlobal s).1, 1, false⟩) := by
  have hplanner : plannerFor [e] s = some (.planOne []) := by
    unfold plannerFor
    rw [hs]
    exact if_pos hglobal
  have hrun : (planOne []).run [e] s = some ⟨(e.applyGlobal s).1, 1, false⟩ := by
    rw [run_eq_loop]
    unfold loop
    rw [body_nil, if_pos hglobal]
  unfold plan
  rw [hplanner]
  dsimp only
  rw [hrun]
  rfl

theorem absorbs_unplanned (hsteady : Steady false s (e :: es ++ rest)) :
    Absorbed s (e :: es) rest := by
  have hround : round s e = _ := round_unplanned hs
  cases hglobal : e.isGlobal with
  | false =>
    rw [hglobal, if_neg Bool.false_ne_true] at hround
    refine absorbs_of_some (plan_unplanned hs (.inl hglobal)) hsteady rfl fun _ => .inl ⟨rfl, ?_⟩
    rw [fate, react, hround]
    rfl
  | true =>
    rw [if_pos hglobal] at hround
    by_cases hes : es = []
    · subst hes
      have hreplays : (e.applyGlobal s).1.state = .releaseSectorKeyFailed →
          Replays (.planOne []) s [] e [] (e.applyGlobal s).1 := fun hs₁ =>
        { react_eq := react_release_global hs₁ hglobal applyGlobal_idem
          replayed _ hx := nomatch hx
          global := nofun
          progress := .inr fun hrelease => nomatch (planner_release hrelease).symm.trans hs }
      have hplan : plan ([] ++ [e]) s = some (decideNext ⟨(e.applyGlobal s).1, 1, false⟩) :=
        plan_unplanned_global hs hglobal
      exact absorbs_stop hsteady (congrArg (finish e) hround) rfl hplan hreplays
    · refine absorbs_of_some (plan_unplanned hs (.inr hes)) hsteady rfl fun _ => .inl ⟨rfl, ?_⟩
      obtain ⟨x, es, rfl⟩ := exists_cons_of_ne_nil hes
      have hseparable : Separable s e (x :: es ++ rest) := hsteady.2.1
      have hstay := hseparable.2 (by rw [hs]; rfl) hglobal es.length
        (by rw [length_append]; exact Nat.lt_add_right _ (Nat.lt_succ_self _))
      rwa [take_left' (length_cons)] at hstay

end

/-! ## Every call -/

theorem absorbs_plan (hsteady : Steady false s (e :: es ++ rest)) :
    Absorbed s (e :: es) rest := by
  cases hp : fsmPlanners s.state with
  | none => exact absorbs_unplanned hp hsteady
  | some p =>
    by_cases hpacking : s.state = .packingFailed
    · exact absorbs_packing hpacking hsteady
    rcases loop_cases p.body 0 (e :: es) s with
      ⟨s', hmores, hloop⟩ | ⟨pre, e', post, s', heq, hmores, hleaves⟩
    · exact absorbs_mores hp hpacking (cons_ne_nil e es) hmores hloop hsteady
    · rw [heq] at hsteady hleaves ⊢
      exact absorbs_leaves hp hmores (fun _ => hpacking) hleaves hsteady

theorem globalNext_left (h : GlobalNext (es ++ rest)) : GlobalNext es := by
  induction es with
  | nil => trivial
  | cons x es ih =>
    rw [cons_append, GlobalNext] at h
    rw [GlobalNext]
    split at h
    · next hx => rw [if_pos hx]; exact ih h
    · next hx => rw [if_neg hx]; exact h

theorem steady_left (hsteady : Steady ahead s (es ++ rest)) : Steady ahead s es := by
  induction es generalizing ahead s with
  | nil => trivial
  | cons e es ih =>
    rw [cons_append] at hsteady
    obtain ⟨hagrees, ⟨hpacking, hplanner⟩, hrest⟩ := hsteady
    refine ⟨hagrees, ⟨fun hs he => globalNext_left (hpacking hs he), fun hs hglobal n hn => ?_⟩, ?_⟩
    · have hstay := hplanner hs hglobal n (by rw [length_append]; exact Nat.lt_add_right _ hn)
      rwa [take_append_of_le_length hn] at hstay
    · cases hreact : react s e with
      | next s' =>
        rw [hreact] at hrest
        exact ih hrest
      | panics => trivial
      | held s' => trivial

end BatchingLemmas

open BatchingLemmas in
/-- However the events are cut into batches, the sector ends where they lead one at a time. -/
theorem ends_of_steady {s : SectorInfo} {events : List Event} (hsteady : Steady false s events)
    (batches : List (List Event)) (hbatches : batches.flatten = events) :
    Ends plan batches s (fate s events) := by
  subst hbatches
  exact ends_of_absorbs (fun _ _ _ _ => absorbs_plan) (fun _ => rfl) hsteady

end OpenDsn.Pipeline.Fsm
