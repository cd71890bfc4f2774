import OpenDsn.Lib.Slots
import OpenDsn.Pipeline.Batching

/-!
# When batches make a difference

`storage/pipeline/fsm.go`: the events of a sector, handed to `Plan` one at a time and in batches.

* `ends_oneByOne`: `fate` is where the events lead when each is handed in on its own;
* `batches_agree_iff_steady`: the way the events are cut makes no difference, to all of them or to
  the first few, exactly if they are `Steady`;
* `fate_depends_on_batches`: it makes one in three ways.
-/

namespace OpenDsn.Pipeline.Fsm

open Lib Option
open List hiding after

/-- Each event on its own, and a call in which it can be handed in once more. -/
def oneByOne (es : List Event) : List (List Event) := es.flatMap fun e => [[e], []]

variable {s₀ s s' : SectorInfo} {ahead : Bool} {e : Event} {p : Planner} {n : Nat}
  {pre es events pending : List Event}

namespace ExactLemmas

open PlannerLemmas BatchingLemmas

/-! ## One event -/

variable (s pending) in
/-- What waits is ignored, in `ReleaseSectorKeyFailed`, where no event counts as processed. -/
def Settled : Prop :=
  ∀ x ∈ pending, s.state = .releaseSectorKeyFailed ∧ x.isIgnorable = true

theorem settled_nil : Settled s [] := fun _ hx => nomatch hx

section

variable (h : Settled s pending)
include h

theorem Settled.eq_nil (hs : s.state ≠ .releaseSectorKeyFailed) : pending = [] :=
  eq_nil_iff_forall_not_mem.mpr fun x hx => hs (h x hx).1

theorem Settled.release (hs' : s'.state = .releaseSectorKeyFailed) :
    Settled s' pending := fun x hx => ⟨hs', (h x hx).2⟩

theorem Settled.mores (hp : fsmPlanners s.state = some p) : Mores p.body s pending s := by
  induction pending with
  | nil => exact .nil
  | cons x pending ih =>
    obtain ⟨⟨hs, hx⟩, h⟩ := forall_mem_cons.mp h
    refine .cons ?_ (ih h)
    obtain rfl := mem_unique hp (planner_release hs)
    rw [eq_of_isIgnorable hx]
    rfl

theorem plan_last : plan (pending ++ [e]) s = after pending.length (round s e) := by
  cases hp : fsmPlanners s.state with
  | none =>
    obtain rfl := h.eq_nil fun hs => nomatch (planner_release hs).symm.trans hp
    rw [round_unplanned hp]
    split
    · next hglobal => exact plan_unplanned_global hp hglobal
    · next hglobal => exact plan_unplanned hp (.inl (Bool.not_eq_true _ ▸ hglobal))
  | some p => rw [plan_after hp (h.mores hp), round_of_planner hp]

theorem call_settled : call plan (s, pending) [] = some (s, pending) := by
  by_cases hne : pending = []
  · rw [hne]
    rfl
  obtain ⟨x, hx⟩ := exists_mem_of_ne_nil pending hne
  have hs := (h x hx).1
  have hloop := loop_mores (h.mores (planner_release hs)) 0 []
  rw [append_nil, zero_add] at hloop
  have hplan : plan pending s = some (s, 0) := by
    rw [plan_eq (planner_release hs) hne, hloop]
    exact congrArg some (decideNext_release hs pending.length)
  rw [call_of_ne_nil (by rwa [append_nil]), append_nil, hplan]
  rfl

end

variable (s pending) in
/-- The first of the events that wait is never processed. -/
def Stuck : Prop :=
  pending ≠ [] ∧ ∀ es, plan (pending ++ es) s = some (s, 0)

theorem call_stuck (h : Stuck s pending) (batch : List Event) :
    call plan (s, pending) batch = some (s, pending ++ batch) := by
  rw [call_of_ne_nil (append_ne_nil_of_left_ne_nil h.1 batch), h.2]
  rfl

theorem Stuck.append (h : Stuck s pending) (batch : List Event) : Stuck s (pending ++ batch) := by
  refine ⟨append_ne_nil_of_left_ne_nil h.1 batch, fun es => ?_⟩
  rw [append_assoc]
  exact h.2 _

theorem calls_stuck (h : Stuck s pending) (batches : List (List Event)) :
    calls plan batches (s, pending) = some (s, pending ++ batches.flatten) := by
  induction batches generalizing pending with
  | nil => exact congrArg some (Prod.ext rfl (append_nil pending).symm)
  | cons batch batches ih =>
    rw [calls_cons, call_stuck h batch, bind_some, ih (h.append batch), append_assoc]
    rfl

theorem stuck_of_keep (hround : round s e = .keep s') : s' = s ∧ Stuck s [e] := by
  cases hp : fsmPlanners s.state with
  | none =>
    rw [round_unplanned hp] at hround
    split at hround
    · cases hround
    next hglobal =>
    rw [Bool.not_eq_true] at hglobal
    exact ⟨(Outcome.keep.inj hround).symm, cons_ne_nil e [],
      fun es => plan_unplanned hp (.inl hglobal)⟩
  | some p =>
    rw [round_of_planner hp] at hround
    obtain rfl := body_eq_keep hround
    refine ⟨rfl, cons_ne_nil e [], fun es => ?_⟩
    rw [singleton_append, plan_eq hp (cons_ne_nil e es)]
    unfold loop
    rw [hround]
    rfl

/-- A global event that leaves a sector in `ReleaseSectorKeyFailed` is held there. -/
theorem stuck_of_global (h : Settled s pending) (hs : s.state = .releaseSectorKeyFailed)
    (hglobal : e.isGlobal = true) (hself : (e.applyGlobal s).1 = s) :
    Stuck s (pending ++ [e]) := by
  have hbody : (Planner.planOne [on .sectorUpdateActive .releaseSectorKey]).body s e = .stop s :=
    (if_pos hglobal).trans (congrArg Outcome.stop hself)
  refine ⟨append_ne_nil_of_right_ne_nil pending (cons_ne_nil e []), fun es => ?_⟩
  rw [append_assoc, singleton_append, plan_eq (planner_release hs)
    (append_ne_nil_of_right_ne_nil pending (cons_ne_nil e es)),
    loop_mores (h.mores (planner_release hs)), zero_add]
  unfold loop
  rw [hbody]
  exact congrArg some (decideNext_release hs (pending.length + 1))

/-- How an event can lead to `ReleaseSectorKeyFailed`. -/
theorem round_release (hround : round s e = .more s' ∨ round s e = .stop s')
    (hs' : s'.state = .releaseSectorKeyFailed) :
    e.isGlobal = true ∧ s' = (e.applyGlobal s).1 ∨
      e.isGlobal = false ∧ e.type ≠ .sectorUpdateActive := by
  cases hp : fsmPlanners s.state with
  | none =>
    rw [round_unplanned hp] at hround
    split at hround
    · next hglobal =>
      rcases hround with hmore | hstop
      · cases hmore
      · exact .inl ⟨hglobal, (Outcome.stop.inj hstop).symm⟩
    · rcases hround with hmore | hstop
      · cases hmore
      · cases hstop
  | some p =>
    rw [round_of_planner hp] at hround
    have hattuned : Attuned p false s := attuned_of_planner hp
    rcases hround with hmore | hstop
    · have hremoved : p ≠ .finalRemoved := by
        rintro rfl
        obtain rfl := Outcome.more.inj hmore
        rw [hs'] at hp
        cases hp
      rcases replayed_of_more hattuned hremoved hmore with hpassed | ⟨rfl, rfl⟩
      · exact .inr hpassed
      · cases hmore
        rw [hs'] at hp
        cases hp
    · cases hglobal : e.isGlobal with
      | true => exact .inl ⟨rfl, stop_of_global hglobal hstop⟩
      | false => exact .inr ⟨rfl, (stop_of_not_global hattuned hglobal hstop hs').2⟩

theorem drop_handed : (pending ++ [e]).drop (pending.length + 1) = [] :=
  drop_eq_nil_of_le (by rw [length_append]; exact le_refl _)

/-- The event is handed in and the sector is left in `ReleaseSectorKeyFailed`. -/
theorem call_release (h : Settled s pending) (hs : s.state = .releaseSectorKeyFailed)
    (hglobal : e.isGlobal = false) (htype : e.type ≠ .sectorUpdateActive) :
    ∃ pending', call plan (s, pending ++ [e]) [] = some (s, pending') ∧ Settled s pending' := by
  have hround : round s e = if e.isIgnorable then .more s else .reject s := by
    rw [round_of_planner (planner_release hs)]
    exact body_release hglobal htype
  have hcall : call plan (s, pending ++ [e]) [] =
      (plan (pending ++ [e]) s).map fun r => (r.1, (pending ++ [e]).drop r.2) := by
    have hne := append_ne_nil_of_right_ne_nil pending (cons_ne_nil e [])
    rw [call_of_ne_nil (by rwa [append_nil]), append_nil]
  rw [plan_last h, hround] at hcall
  by_cases hignorable : e.isIgnorable = true
  · refine ⟨pending ++ [e], ?_, ?_⟩
    · rw [hcall, if_pos hignorable]
      exact congrArg (Option.map _) (congrArg some (decideNext_release hs (pending.length + 1)))
    · exact forall_mem_snoc h ⟨hs, hignorable⟩
  · refine ⟨[], ?_, settled_nil⟩
    rw [hcall, if_neg hignorable]
    exact congrArg (fun l => some (s, l)) drop_handed

theorem calls_one (h : Settled s pending) (e : Event) :
    calls plan [[e], []] (s, pending) = (after pending.length (round s e)).bind fun r =>
      call plan (r.1, (pending ++ [e]).drop r.2) [] := by
  have hne : pending ++ [e] ≠ [] :=
    append_ne_nil_of_right_ne_nil pending (cons_ne_nil e [])
  rw [calls_cons, call_of_ne_nil hne, plan_last h]
  cases after pending.length (round s e) with
  | none => rfl
  | some r =>
    have hlast : calls plan [[]] (r.1, (pending ++ [e]).drop r.2) =
        call plan (r.1, (pending ++ [e]).drop r.2) [] := by
      rw [calls_cons]
      cases call plan (r.1, (pending ++ [e]).drop r.2) [] with
      | none => rfl
      | some c => rfl
    exact hlast

/-- What has become of an event when it has been handed in, and what waits once more. -/
inductive Becomes (s : SectorInfo) (pending : List Event) (e : Event) : Prop
  | panics : react s e = .panics → calls plan [[e], []] (s, pending) = none → Becomes s pending e
  | next {s' : SectorInfo} {pending' : List Event} : react s e = .next s' →
      calls plan [[e], []] (s, pending) = some (s', pending') → Settled s' pending' →
      Becomes s pending e
  | held {s' : SectorInfo} {pending' : List Event} : react s e = .held s' →
      calls plan [[e], []] (s, pending) = some (s', pending') → Stuck s' pending' →
      Becomes s pending e

theorem becomes_of_leads (h : Settled s pending)
    (hround : round s e = .more s' ∨ round s e = .stop s') : Becomes s pending e := by
  -- a round that goes on and one that stops lead to the same
  have hleads : react s e = finish e (.stop s') ∧ after pending.length (round s e) =
      some (decideNext ⟨s', pending.length + 1, false⟩) := by
    unfold react
    rcases hround with hround | hround
    · rw [hround]
      exact ⟨rfl, rfl⟩
    · rw [hround]
      exact ⟨rfl, rfl⟩
  obtain ⟨hreact, hafter⟩ := hleads
  have hcalls := calls_one h e
  rw [hafter, bind_some] at hcalls
  by_cases hs' : s'.state = .releaseSectorKeyFailed
  · rw [decideNext_release hs', drop_zero] at hcalls
    have h' := h.release hs'
    rcases round_release hround hs' with ⟨hglobal, heq⟩ | ⟨hglobal, htype⟩
    · have hstuck := stuck_of_global h' hs' hglobal (by rw [heq, applyGlobal_idem])
      rw [call_stuck hstuck] at hcalls
      rw [finish_stop_held hs' hglobal] at hreact
      exact .held hreact hcalls (hstuck.append [])
    · obtain ⟨pending', hcall, hsettled⟩ := call_release h' hs' hglobal htype
      rw [finish_stop, finish_more (by rw [hs']; decide) fun _ => hglobal] at hreact
      exact .next hreact (hcalls.trans hcall) hsettled
  · obtain ⟨hfinish, hcount⟩ := finish_stop_next (e := e) hs' (pending.length + 1)
    rw [hcount, drop_handed] at hcalls
    exact .next (hreact.trans hfinish) hcalls (settled_nil)

theorem becomes (h : Settled s pending) (e : Event) : Becomes s pending e := by
  have hcalls := calls_one h e
  have hreact : react s e = finish e (round s e) := rfl
  cases hround : round s e with
  | more s' => exact becomes_of_leads h (.inl hround)
  | stop s' => exact becomes_of_leads h (.inr hround)
  | panics =>
    rw [hround] at hcalls hreact
    exact .panics hreact hcalls
  | reject s' =>
    rw [hround] at hcalls hreact
    refine .next hreact (hcalls.trans ?_) (settled_nil)
    rw [after, bind_some, drop_handed]
    rfl
  | keep s' =>
    obtain ⟨rfl, hstuck⟩ := stuck_of_keep hround
    rw [hround] at hcalls hreact
    refine .held hreact (hcalls.trans ?_) (hstuck.append [])
    rw [after, bind_some, drop_left, call_stuck hstuck]

/-! ## One event after the other -/

theorem flatten_oneByOne : (oneByOne es).flatten = es := by
  induction es with
  | nil => rfl
  | cons e es ih => exact congrArg (e :: ·) ih

theorem oneByOne_append (es es' : List Event) :
    oneByOne (es ++ es') = oneByOne es ++ oneByOne es' := flatMap_append

/-- The calls fail where an event panics, and come to rest where the events lead. -/
theorem calls_oneByOne (h : Settled s pending) :
    fate s es = none ∧ calls plan (oneByOne es) (s, pending) = none ∨
      ∃ s' pending', fate s es = some s' ∧
        calls plan (oneByOne es) (s, pending) = some (s', pending') ∧
        call plan (s', pending') [] = some (s', pending') := by
  induction es generalizing s pending with
  | nil => exact .inr ⟨s, pending, rfl, rfl, call_settled h⟩
  | cons e es ih =>
    rw [show oneByOne (e :: es) = [[e], []] ++ oneByOne es from rfl, calls_append, fate]
    cases becomes h e with
    | panics hreact hcalls =>
      rw [hreact, hcalls]
      exact .inl ⟨rfl, rfl⟩
    | next hreact hcalls hsettled =>
      rw [hreact, hcalls]
      exact ih hsettled
    | @held s' pending' hreact hcalls hstuck =>
      rw [hreact, hcalls]
      refine .inr ⟨s', pending' ++ (oneByOne es).flatten, rfl, calls_stuck hstuck _, ?_⟩
      rw [call_stuck (hstuck.append _), append_nil]

end ExactLemmas

open ExactLemmas in
/-- Handed in on its own, every event is planned in the state the ones before it have led to. -/
theorem ends_oneByOne : Ends plan (oneByOne es) s (fate s es) := by
  rcases calls_oneByOne (settled_nil) with
    ⟨hfate, hcalls⟩ | ⟨s', pending', hfate, hcalls, hrest⟩
  · rw [hfate]
    exact ends_of_calls_none hcalls
  · rw [hfate]
    exact ends_of_fixed hcalls hrest

namespace ExactLemmas

open PlannerLemmas BatchingLemmas

/-! ## Events that are not steady -/

variable (s es) in
/-- Some way of cutting the events does not lead where they lead one at a time. -/
def Differs : Prop :=
  ∃ batches r, batches.flatten = es ∧ Ends plan batches s r ∧ r ≠ fate s es

variable (s₀ pre) in
/-- The events `pre` lead to the sector one at a time. If a call of `planCommitting` can have come
to it, there is one that has: it began after the first few of them. -/
structure Reached (ahead : Bool) (s : SectorInfo) : Prop where
  fate_eq : ∀ rest, fate s₀ (pre ++ rest) = fate s rest
  calls_eq : ∃ pending, calls plan (oneByOne pre) (s₀, []) = some (s, pending) ∧ Settled s pending
  overrun : ahead = true → ∃ first es c, pre = first ++ es ∧
    calls plan (oneByOne first) (s₀, []) = some (c, []) ∧ c.state = .committing ∧
    Mores planCommittingBody c es s

theorem Reached.calls_nil (h : Reached s₀ pre ahead s) (hs : s.state ≠ .releaseSectorKeyFailed) :
    calls plan (oneByOne pre) (s₀, []) = some (s, []) := by
  obtain ⟨pending, hcalls, hsettled⟩ := h.calls_eq
  rw [hcalls, hsettled.eq_nil hs]

theorem finish_committing_more (hs : s.state ∈ committingStates) :
    finish e (.more s) = .next s := by
  obtain ⟨hpacking, hrelease⟩ := ne_of_mem_committingStates hs
  exact finish_more hpacking fun hstate => absurd hstate hrelease

theorem mem_of_mores {c : SectorInfo} (hc : c.state ∈ committingStates)
    (h : Mores planCommittingBody c es s) : s.state ∈ committingStates := by
  induction h with
  | nil => exact hc
  | cons hbody _ ih => exact ih (planCommitting_more hc hbody).2

theorem react_committing (hs : s.state = .committing) :
    react s e = finish e (planCommittingBody s e) :=
  react_of_planner (by rw [hs]; rfl)

theorem Reached.next (h : Reached s₀ pre ahead s) (hagrees : ahead = true → Agrees s e)
    (hreact : react s e = .next s') : Reached s₀ (pre ++ [e]) (overruns ahead s e) s' := by
  refine ⟨fun rest => ?_, ?_, fun hover => ?_⟩
  · rw [append_assoc, singleton_append, h.fate_eq, fate, hreact]
  · obtain ⟨pending, hcalls, hsettled⟩ := h.calls_eq
    rw [oneByOne_append, calls_append, hcalls, bind_some]
    cases becomes hsettled e with
    | panics hreact' | held hreact' => cases hreact.symm.trans hreact'
    | next hreact' hcalls' hsettled' =>
      cases hreact.symm.trans hreact'
      exact ⟨_, hcalls', hsettled'⟩
  · unfold overruns at hover
    rw [Bool.and_eq_true, Bool.or_eq_true] at hover
    obtain ⟨hover, hmore⟩ := hover
    split at hmore
    · next s₁ hbody =>
      by_cases hs : s.state = .committing
      · -- the call begins here
        have hs₁ := (planCommitting_more (hs ▸ mem_cons_self) hbody).2
        have hreact' := react_committing (e := e) hs
        rw [hreact, hbody, finish_committing_more hs₁] at hreact'
        cases hreact'
        exact ⟨pre, [e], s, rfl, h.calls_nil (by rw [hs]; decide), hs, .cons hbody .nil⟩
      · obtain rfl : ahead = true := hover.resolve_right fun hstate => hs (of_decide_eq_true hstate)
        obtain ⟨first, es, c, rfl, hcalls, hc, hmores⟩ := h.overrun rfl
        have hmem := mem_of_mores (hc ▸ mem_cons_self) hmores
        have hs₁ := (planCommitting_more hmem hbody).2
        have hagree := (agrees_iff hmem).mp (hagrees rfl)
        rw [hbody, finish_committing_more hs₁] at hagree
        have hnext := hagree.resolve_left (by rintro ⟨_, h⟩; cases h)
        cases hreact.symm.trans hnext
        exact ⟨first, es ++ [e], c, append_assoc first es [e], hcalls, hc, hmores.snoc hbody⟩
    · cases hmore

/-- One more batch, which leaves nothing to do. -/
theorem differs_of_batch {batch : List Event}
    (hcalls : calls plan (oneByOne pre) (s₀, []) = some (s, [])) (hbatch : batch ≠ [])
    (hplan : plan batch s = some (s', n))
    (hrest : call plan (s', batch.drop n) [] = some (s', batch.drop n))
    (hfate : some s' ≠ fate s₀ (pre ++ batch)) : Differs s₀ (pre ++ batch) := by
  refine ⟨oneByOne pre ++ [batch], some s', ?_, ends_of_fixed ?_ hrest, hfate⟩
  · rw [flatten_append, flatten_oneByOne, flatten_singleton]
  · have hcall : call plan (s, []) batch = some (s', batch.drop n) := by
      rw [call_of_ne_nil (by rwa [nil_append]), nil_append, hplan]
      rfl
    rw [calls_append, hcalls, bind_some, calls_cons, hcall]
    rfl

/-- The states that `planCommitting` goes on to have a table. -/
theorem planOne_of_mem : ∀ q ∈ committingStates,
    q = .committing ∨ ∃ ts, fsmPlanners q = some (.planOne ts) := by
  simp [committingStates, fsmPlanners]

theorem react_planOne {ts : List Transition} (hp : fsmPlanners s.state = some (.planOne ts))
    (hglobal : e.isGlobal = false) : react s e = .panics ∨ ∃ s', react s e = .next s' := by
  have hround : react s e = finish e (planOneBody ts s e) := react_of_planner hp
  rw [hround]
  have hleads : ∀ s', ∃ s₁, finish e (.stop s') = .next s₁ := by
    intro s'
    unfold finish
    dsimp only
    rw [hglobal]
    split
    · exact ⟨_, rfl⟩
    · exact ⟨s', if_neg fun h => Bool.false_ne_true h.2⟩
  cases hbody : planOneBody ts s e with
  | panics => exact .inl rfl
  | more s' | stop s' => exact .inr (hleads s')
  | reject s' => exact .inr ⟨s', rfl⟩
  | keep s' => exact absurd hbody (planOneBody_ne_keep ts)

/-- Where `planCommitting` does not agree, it has gone on at an event or taken a new seed. -/
theorem leads_of_not_agrees (hs : s.state ∈ committingStates) (hagrees : ¬Agrees s e) :
    e.isGlobal = false ∧ (∃ ts, fsmPlanners s.state = some (.planOne ts)) ∧
      ∃ s₁, s₁.state ∈ committingStates ∧
        (planCommittingBody s e = .more s₁ ∨ planCommittingBody s e = .stop s₁) := by
  rw [agrees_iff hs, not_or] at hagrees
  obtain ⟨hkeep, hreact⟩ := hagrees
  rcases planOne_of_mem s.state hs with hcommitting | ⟨ts, hp⟩
  · exact absurd (react_committing hcommitting) hreact
  have hglobal : e.isGlobal = true → react s e = finish e (.stop (e.applyGlobal s).1) := by
    intro hglobal
    have hbody : (Planner.planOne ts).body s e = .stop (e.applyGlobal s).1 := if_pos hglobal
    rw [react_of_planner hp, hbody]
  generalize hbody : planCommittingBody s e = outcome
  cases planCommitting_cases hbody with
  | restart hrestart =>
    subst hrestart
    exact absurd (by rw [hbody]; exact hglobal rfl) hreact
  | global h => exact absurd (by rw [hbody]; exact hglobal h) hreact
  | moves h _ hq => exact ⟨h, ⟨ts, hp⟩, _, hq, .inl rfl⟩
  | sameSeed h => exact ⟨h, ⟨ts, hp⟩, s, hs, .inl rfl⟩
  | newSeed h hstate => exact ⟨h, ⟨ts, hp⟩, _, hstate ▸ mem_cons_self, .inr rfl⟩
  | kept => exact absurd ⟨s, hbody⟩ hkeep

/-- The call of `planCommitting` is made with the events from its beginning to the one where it
does not agree. -/
theorem differs_of_not_agrees (h : Reached s₀ pre true s) (hagrees : ¬Agrees s e) :
    Differs s₀ (pre ++ [e]) := by
  have hfate := h.fate_eq [e]
  obtain ⟨first, es, c, rfl, hcalls, hc, hmores⟩ := h.overrun rfl
  have hmem := mem_of_mores (hc ▸ mem_cons_self) hmores
  obtain ⟨hglobal, ⟨ts, hp⟩, s₁, hs₁, hbody⟩ := leads_of_not_agrees hmem hagrees
  obtain ⟨hpacking, hrelease⟩ := ne_of_mem_committingStates hs₁
  have hplan : plan (es ++ [e]) c = some (s₁, es.length + 1) := by
    have hcommitting : fsmPlanners c.state = some .planCommitting := by
      rw [hc]
      rfl
    have hafter : plan (es ++ [e]) c = after es.length (planCommittingBody s e) :=
      plan_after hcommitting hmores
    rw [hafter, ← decideNext_eq hpacking hrelease]
    rcases hbody with hbody | hbody
    · rw [hbody]
      rfl
    · rw [hbody]
      rfl
  rw [append_assoc] at hfate ⊢
  refine differs_of_batch hcalls (append_ne_nil_of_right_ne_nil es (cons_ne_nil e []))
    hplan (by rw [drop_handed]; rfl) ?_
  rw [hfate, fate]
  rcases react_planOne hp hglobal with hpanics | ⟨s₂, hnext⟩
  · rw [hpanics]
    exact some_ne_none s₁
  · rw [hnext]
    intro heq
    cases heq
    refine hagrees ((agrees_iff hmem).mpr (.inr (hnext.trans ?_)))
    have hfinish := finish_committing_more (e := e) hs₁
    rcases hbody with hbody | hbody
    · rw [hbody, hfinish]
    · rw [hbody, finish_stop, hfinish]

theorem exists_of_not_globalNext (h : ¬GlobalNext es) :
    ∃ ignored x post, es = ignored ++ x :: post ∧ (∀ y ∈ ignored, y.isIgnorable = true) ∧
      x.isIgnorable = false ∧ x.isGlobal = false := by
  induction es with
  | nil => exact absurd trivial h
  | cons x es ih =>
    rw [GlobalNext] at h
    cases hx : x.isIgnorable with
    | false =>
      rw [hx, if_neg Bool.false_ne_true, Bool.not_eq_true] at h
      exact ⟨[], x, es, rfl, forall_mem_nil _, hx, h⟩
    | true =>
      rw [if_pos hx] at h
      obtain ⟨ignored, y, post, rfl, hignored, hy⟩ := ih h
      exact ⟨x :: ignored, y, post, rfl, forall_mem_cons.mpr ⟨hx, hignored⟩, hy⟩

theorem mores_ignored (hes : ∀ x ∈ es, x.isIgnorable = true) :
    Mores (Planner.planOne []).body s es s := by
  induction es with
  | nil => exact .nil
  | cons x es ih =>
    obtain ⟨hx, hes⟩ := forall_mem_cons.mp hes
    exact .cons (body_nil_ignored hx) (ih hes)

/-- A call that begins with ignored events in `PackingFailed` ends with an error. -/
theorem differs_of_packing (h : Reached s₀ pre ahead s) (hs : s.state = .packingFailed)
    (he : e.isIgnorable = true) (hnext : ¬GlobalNext es) :
    ∃ es', es' <+: e :: es ∧ Differs s₀ (pre ++ es') := by
  obtain ⟨ignored, x, post, rfl, hignored, hx, hglobal⟩ := exists_of_not_globalNext hnext
  have hall : ∀ y ∈ e :: ignored, y.isIgnorable = true :=
    forall_mem_cons.mpr ⟨he, hignored⟩
  have hreject : ∀ s, (Planner.planOne []).body s x = .reject s := by
    intro s
    rw [body_nil, hglobal, if_neg Bool.false_ne_true, hx, if_neg Bool.false_ne_true]
  have hne : e :: ignored ++ [x] ≠ [] := cons_ne_nil e _
  have hplan : plan (e :: ignored ++ [x]) s = some (s, (e :: ignored).length + 1) := by
    rw [plan_after (planner_packing hs) (mores_ignored hall), hreject]
    rfl
  refine ⟨e :: ignored ++ [x], ⟨post, by simp⟩, differs_of_batch
    (h.calls_nil (by rw [hs]; decide)) hne hplan (by rw [drop_handed]; rfl) ?_⟩
  have hexpired : react (expired s) x = .next (expired s) := by
    have hp : fsmPlanners (expired s).state = some (.planOne []) := rfl
    rw [react_of_planner hp, hreject]
    rfl
  rw [h.fate_eq, (packing_ignored hs (cons_ne_nil e ignored) hall).1, fate, hexpired]
  intro heq
  have hstate : s.state = .dealsExpired := congrArg SectorInfo.state (some.inj heq)
  rw [hs] at hstate
  cases hstate

/-- A call that finds no planner for more than one event leaves the sector where it is. -/
theorem differs_of_unplanned (h : Reached s₀ pre ahead s) (hs : fsmPlanners s.state = none)
    (hes : es ≠ []) (hfate : fate s (e :: es) ≠ some s) : Differs s₀ (pre ++ e :: es) := by
  have hrelease : s.state ≠ .releaseSectorKeyFailed := fun hrelease =>
    nomatch (planner_release hrelease).symm.trans hs
  have hplan := plan_unplanned (e := e) hs (.inr hes)
  refine differs_of_batch (h.calls_nil hrelease) (cons_ne_nil e es) hplan ?_ ?_
  · rw [drop_zero, call_of_ne_nil (by rw [append_nil]; exact cons_ne_nil e es),
      append_nil, hplan]
    rfl
  · rw [h.fate_eq]
    exact hfate.symm

theorem exists_differs (h : Reached s₀ pre ahead s) (hsteady : ¬Steady ahead s events) :
    ∃ es, es <+: events ∧ Differs s₀ (pre ++ es) := by
  induction events generalizing pre ahead s with
  | nil => exact absurd trivial hsteady
  | cons e es ih =>
    by_cases hagrees : ahead = true → Agrees s e
    swap
    · obtain ⟨rfl, hdiffers⟩ := Classical.not_imp.mp hagrees
      exact ⟨[e], ⟨es, rfl⟩, differs_of_not_agrees h hdiffers⟩
    by_cases hpacking : s.state = .packingFailed → e.isIgnorable = true → GlobalNext es
    swap
    · obtain ⟨hs, hnext⟩ := Classical.not_imp.mp hpacking
      obtain ⟨he, hnext⟩ := Classical.not_imp.mp hnext
      exact differs_of_packing h hs he hnext
    by_cases hplanner : (fsmPlanners s.state).isNone = true → e.isGlobal = true →
        ∀ n < es.length, fate s (e :: es.take (n + 1)) = some s
    swap
    · obtain ⟨hs, hstay⟩ := Classical.not_imp.mp hplanner
      obtain ⟨-, hstay⟩ := Classical.not_imp.mp hstay
      obtain ⟨n, hstay⟩ := Classical.not_forall.mp hstay
      obtain ⟨hn, hstay⟩ := Classical.not_imp.mp hstay
      have hne : es.take (n + 1) ≠ [] := by
        intro hnil
        have hlength := congrArg List.length hnil
        rw [length_take_of_le hn] at hlength
        cases hlength
      exact ⟨e :: es.take (n + 1), (prefix_cons_inj e).mpr (List.take_prefix _ es),
        differs_of_unplanned h (isNone_iff_eq_none.mp hs) hne hstay⟩
    have hlater := fun hrest => hsteady ⟨hagrees, ⟨hpacking, hplanner⟩, hrest⟩
    cases hreact : react s e with
    | panics | held s' =>
      rw [hreact] at hlater
      exact absurd trivial hlater
    | next s' =>
      rw [hreact] at hlater
      obtain ⟨es', hes', hdiffers⟩ := ih (h.next hagrees hreact) hlater
      rw [append_assoc] at hdiffers
      exact ⟨e :: es', (prefix_cons_inj e).mpr hes', hdiffers⟩

end ExactLemmas

open BatchingLemmas ExactLemmas in
/-- At every point of the events, all the ways of cutting the ones so far end in the same sector,
exactly if the events are steady. -/
theorem batches_agree_iff_steady (s : SectorInfo) (events : List Event) :
    (∀ es, es <+: events →
      ∃ r, ∀ batches : List (List Event), batches.flatten = es → Ends plan batches s r) ↔
    Steady false s events := by
  constructor
  · intro hagree
    by_contra hsteady
    have hstart : Reached s [] false s := ⟨fun _ => rfl, ⟨[], rfl, settled_nil⟩, nofun⟩
    obtain ⟨es, hes, batches, r, hbatches, hends, hne⟩ := exists_differs hstart hsteady
    obtain ⟨r', hr'⟩ := hagree es hes
    have hfate := (hr' (oneByOne es) (flatten_oneByOne)).unique (ends_oneByOne)
    exact hne ((hends.unique (hr' batches hbatches)).trans hfate)
  · rintro hsteady es ⟨rest, rfl⟩
    exact ⟨fate s es, ends_of_steady (steady_left hsteady)⟩

/-- A sector in a state, with nothing else set. -/
def sectorIn (state : SectorState) : SectorInfo := { SectorInfo.zero with state := state }

-- `planCommitting` plans the failure in one batch with the proof, as `SubmitCommit` does
example : Steady false (sectorIn .committing) [.sectorCommitted [1], .sectorRestart,
    .sectorCommitFailed, .sectorRetrySubmitCommit, .sectorCommitSubmitted 5] := by decide

/-- Two events in one batch and one by one: after the proof `planCommitting` goes on to the retry,
which `SubmitCommit` rejects; in a state without a planner a global event is planned only on its
own; and `PackingFailed` is not left in a call that ends with an error. -/
theorem fate_depends_on_batches :
    (Ends plan [[.sectorCommitted [1], .sectorRetryCommitWait]] (sectorIn .committing)
        (some { sectorIn .commitWait with proof := [1] }) ∧
      Ends plan [[.sectorCommitted [1]], [.sectorRetryCommitWait]] (sectorIn .committing)
        (some { sectorIn .submitCommit with proof := [1] })) ∧
    (Ends plan [[.sectorForceState .proving, .sectorFaulty]] (sectorIn (.other "Unknown"))
        (some (sectorIn (.other "Unknown"))) ∧
      Ends plan [[.sectorForceState .proving], [.sectorFaulty]] (sectorIn (.other "Unknown"))
        (some (sectorIn .faulty))) ∧
    (Ends plan [[.sectorStartPacking, .sectorFaulty]] (sectorIn .packingFailed)
        (some (sectorIn .packingFailed)) ∧
      Ends plan [[.sectorStartPacking], [.sectorFaulty]] (sectorIn .packingFailed)
        (some (sectorIn .dealsExpired))) :=
  ⟨⟨ends_of_fixed rfl rfl, ends_of_fixed rfl rfl⟩, ⟨ends_of_fixed rfl rfl, ends_of_fixed rfl rfl⟩,
    ⟨ends_of_fixed rfl rfl, ends_of_fixed rfl rfl⟩⟩

end OpenDsn.Pipeline.Fsm
