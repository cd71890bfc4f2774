import OpenDsn.Lib.Slots

/-!
# Runs of a step function

A component is a step function `step : σ → α → Option σ` on its states, where
`none` stands for a step that fails. This module has the states a run passes
through and the rules the component proofs use:

* `trace_forall_guarded`: a property that every step keeps when it meets its
  guard holds along a run in which every step does;
* `trace_forall_iff`: where a step keeps a property exactly when a guard on
  the state before it holds, the property holds along the whole run exactly
  when every step meets its guard;
* `trace_isSome_iff`: where a step fails exactly when it does not meet a guard,
  a run has no step that fails exactly when every step meets the guard.
-/

namespace OpenDsn.Lib

open List Option

variable {σ α : Type*}

/-- The states of a run, the first one included. -/
def trace (step : σ → α → Option σ) (s : σ) : List α → Option (List σ)
  | [] => some [s]
  | a :: as =>
      match step s a with
      | none => none
      | some s' => (trace step s' as).map (s :: ·)

/-- Every step of the run meets `guard` in the state it starts from. -/
def Guarded (step : σ → α → Option σ) (guard : σ → α → Prop) (s : σ) : List α → Prop
  | [] => True
  | a :: as => guard s a ∧ ∀ s', step s a = some s' → Guarded step guard s' as

/-- A guard that can be tested can be tested along a run. -/
instance Guarded.instDecidable {step : σ → α → Option σ} {guard : σ → α → Prop}
    [∀ s a, Decidable (guard s a)] : ∀ s as, Decidable (Guarded step guard s as)
  | _, [] => isTrue trivial
  | s, a :: as =>
      match h : step s a with
      | none => decidable_of_iff (guard s a)
          ⟨fun hg => ⟨hg, fun _ hs' => nomatch h.symm.trans hs'⟩, And.left⟩
      | some s' =>
          have : Decidable (Guarded step guard s' as) := instDecidable s' as
          decidable_of_iff (guard s a ∧ Guarded step guard s' as)
            (and_congr_right fun _ => ⟨fun hg _ hs'' => Option.mem_unique h hs'' ▸ hg,
              fun hall => hall s' h⟩)

variable {step : σ → α → Option σ} {s : σ} {guard : σ → α → Prop} {as : List α} {ss : List σ}

theorem trace_cons {a : α} (h : trace step s (a :: as) = some ss) :
    ∃ s' tl, step s a = some s' ∧ trace step s' as = some tl ∧ ss = s :: tl := by
  simp only [trace] at h
  cases hs : step s a with
  | none => rw [hs] at h; cases h
  | some s' =>
    rw [hs] at h
    obtain ⟨tl, htl, rfl⟩ := map_eq_some_iff.mp h
    exact ⟨s', tl, rfl, htl, rfl⟩

/-- A concrete run that was evaluated. -/
theorem exists_trace {p : List σ → Prop}
    [DecidablePred p] (h : (trace step s as).any (fun ss => p ss) = true) :
    ∃ ss, trace step s as = some ss ∧ p ss := by
  cases ht : trace step s as with
  | none => rw [ht] at h; cases h
  | some ss => rw [ht] at h; exact ⟨ss, rfl, of_decide_eq_true h⟩

/-- A concrete run, and what holds of every such run. -/
theorem exists_trace_of {q : List σ → Prop} (h : (trace step s as).isSome = true)
    (hq : ∀ ss, trace step s as = some ss → q ss) : ∃ ss, trace step s as = some ss ∧ q ss :=
  (isSome_iff_exists.mp h).imp fun ss hss => ⟨hss, hq ss hss⟩

/-- What follows from the evaluation of a concrete run. -/
theorem exists_trace_imp {p q : List σ → Prop} [DecidablePred p]
    (h : (trace step s as).any (fun ss => p ss) = true)
    (hq : ∀ ss, trace step s as = some ss → p ss → q ss) :
    ∃ ss, trace step s as = some ss ∧ q ss :=
  (exists_trace h).imp fun ss ⟨hss, hp⟩ => ⟨hss, hq ss hss hp⟩

theorem exists_trace_and {p q : List σ → Prop} [DecidablePred p]
    (h : (trace step s as).any (fun ss => p ss) = true)
    (hq : ∀ ss, trace step s as = some ss → q ss) :
    ∃ ss, trace step s as = some ss ∧ p ss ∧ q ss :=
  exists_trace_imp h fun ss hss hp => ⟨hp, hq ss hss⟩

theorem mem_trace_self (h : trace step s as = some ss) : s ∈ ss := by
  cases as with
  | nil => cases h; exact mem_cons_self
  | cons a as =>
    obtain ⟨_, _, _, _, rfl⟩ := trace_cons h
    exact mem_cons_self

/-- A guard that the steps meet in every state. -/
theorem guarded_of_forall (h : ∀ a ∈ as, ∀ s, guard s a) (s : σ) : Guarded step guard s as := by
  induction as generalizing s with
  | nil => exact trivial
  | cons a as ih =>
    exact ⟨h a mem_cons_self s,
      fun s' _ => ih (fun a' ha' => h a' (mem_cons_of_mem a ha')) s'⟩

/-- The invariant rule: what holds at the start and is kept by every step that
meets its guard holds in every state of a guarded run. -/
theorem trace_forall_guarded {P : σ → Prop}
    (hstep : ∀ s a s', P s → guard s a → step s a = some s' → P s') (hs : P s)
    (h : trace step s as = some ss)
    (hg : Guarded step guard s as) : ∀ t ∈ ss, P t := by
  induction as generalizing s ss with
  | nil =>
    cases h
    exact forall_mem_singleton.mpr hs
  | cons a as ih =>
    obtain ⟨s', tl, hs', htl, rfl⟩ := trace_cons h
    exact forall_mem_cons.mpr ⟨hs, ih (hstep s a s' hs hg.1 hs') htl (hg.2 s' hs')⟩

theorem trace_forall {P : σ → Prop} (hstep : ∀ s a s', P s → step s a = some s' → P s')
    (hs : P s) (h : trace step s as = some ss) : ∀ t ∈ ss, P t :=
  trace_forall_guarded (fun s a s' hP _ => hstep s a s' hP) hs h
    (guarded_of_forall (fun _ _ _ => trivial) s)

/-- The exact rule. `Inv` is kept as long as `P` holds, and from a state with
both a step ends in `P` exactly when it meets the guard. -/
theorem trace_forall_iff {Inv P : σ → Prop}
    (hinv : ∀ s a s', Inv s → P s → guard s a → step s a = some s' → Inv s')
    (hstep : ∀ s a s', Inv s → P s → step s a = some s' → (P s' ↔ guard s a)) (hi : Inv s)
    (hs : P s)
    (h : trace step s as = some ss) : (∀ t ∈ ss, P t) ↔ Guarded step guard s as := by
  induction as generalizing s ss with
  | nil =>
    cases h
    exact ⟨fun _ => trivial, fun _ => forall_mem_singleton.mpr hs⟩
  | cons a as ih =>
    obtain ⟨s', tl, hs', htl, rfl⟩ := trace_cons h
    constructor
    · intro hall
      obtain ⟨-, hall⟩ := forall_mem_cons.mp hall
      have hP : P s' := hall s' (mem_trace_self htl)
      have hg : guard s a := (hstep s a s' hi hs hs').mp hP
      refine ⟨hg, fun s'' hs'' => ?_⟩
      obtain rfl : s' = s'' := mem_unique hs' hs''
      exact (ih (hinv s a s' hi hs hg hs') hP htl).mp hall
    · rintro ⟨hg, hrest⟩
      have hP : P s' := (hstep s a s' hi hs hs').mpr hg
      have hall := (ih (hinv s a s' hi hs hg hs') hP htl).mpr (hrest s' hs')
      exact forall_mem_cons.mpr ⟨hs, hall⟩

/-- The success rule. `I` is kept by the steps, and from a state with it a step that meets
the assumption goes through exactly when it meets the guard. -/
theorem trace_isSome_iff {assumed : σ → α → Prop} {I : σ → Prop}
    (hinv : ∀ s a s', I s → step s a = some s' → I s')
    (hstep : ∀ s a, I s → assumed s a → ((step s a).isSome ↔ guard s a)) (hi : I s)
    (ha : Guarded step assumed s as) :
    (trace step s as).isSome ↔ Guarded step guard s as := by
  induction as generalizing s with
  | nil => exact ⟨fun _ => trivial, fun _ => rfl⟩
  | cons a as ih =>
    have hhead := hstep s a hi ha.1
    unfold trace Guarded
    cases hs : step s a with
    | none =>
      rw [hs] at hhead
      exact ⟨fun h => absurd h Bool.false_ne_true, fun h => hhead.mpr h.1⟩
    | some s' =>
      rw [hs] at hhead
      have hrest := ih (hinv s a s' hi hs) (ha.2 s' hs)
      rw [isSome_map, hrest]
      constructor
      · rintro h
        exact ⟨hhead.mp rfl, fun s'' hs'' => some.inj hs'' ▸ h⟩
      · rintro ⟨-, h⟩
        exact h s' rfl

end OpenDsn.Lib
