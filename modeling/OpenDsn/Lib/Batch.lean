import Mathlib.Data.List.Basic

/-!
# Events that arrive in batches

A component is called with the events that wait and says how many of them it has processed; those
are dropped, and the others are handed in again with the next batch. `plan` is the component, and
none stands for a call that fails.

* `ends_of_absorbs`: if there is a reading of the state and the events that wait, `fate`, which no
  call changes, the run ends in the state that `fate` gives for the events, whichever way they were
  cut into batches.
-/

namespace OpenDsn.Lib

open List

variable {σ ε : Type*} (plan : List ε → σ → Option (σ × Nat))

/-- A call with the events that wait and a batch. There is none if there are no events. -/
def call (c : σ × List ε) (batch : List ε) : Option (σ × List ε) :=
  match c.2 ++ batch with
  | [] => some (c.1, [])
  | e :: es => (plan (e :: es) c.1).map fun r => (r.1, (e :: es).drop r.2)

/-- The calls with the batches, one after the other. -/
def calls (batches : List (List ε)) (c : σ × List ε) : Option (σ × List ε) :=
  batches.foldlM (call plan) c

/-- The state in which a run with the batches ends, when the events that are left over are handed
in again and again: it is not left any more from some number of calls on. -/
def Ends (batches : List (List ε)) (s : σ) (r : Option σ) : Prop :=
  ∃ N, ∀ n, N ≤ n → (calls plan (batches ++ List.replicate n []) (s, [])).map Prod.fst = r

variable {plan} {s : σ} {batches : List (List ε)}

theorem calls_append (batches batches' : List (List ε)) (c : σ × List ε) :
    calls plan (batches ++ batches') c = (calls plan batches c).bind (calls plan batches') :=
  foldlM_append

theorem calls_cons (batch : List ε) (c : σ × List ε) :
    calls plan (batch :: batches) c = (call plan c batch).bind (calls plan batches) :=
  foldlM_cons

variable {c : σ × List ε} {pending : List ε}

theorem call_of_cons {batch es : List ε} {e : ε} (h : c.2 ++ batch = e :: es) :
    call plan c batch = (plan (e :: es) c.1).map fun r => (r.1, (e :: es).drop r.2) := by
  unfold call
  rw [h]

theorem call_of_ne_nil {batch : List ε} (h : pending ++ batch ≠ []) : call plan (s, pending) batch =
      (plan (pending ++ batch) s).map fun r => (r.1, (pending ++ batch).drop r.2) := by
  obtain ⟨e, es, heq⟩ := exists_cons_of_ne_nil h
  rw [heq]
  exact call_of_cons heq

/-- What a call with no new events leaves as it is, no such call changes. -/
theorem calls_replicate_of_fixed (h : call plan c [] = some c) (n : Nat) :
    calls plan (List.replicate n []) c = some c := by
  induction n with
  | zero => rfl
  | succ n ih => rw [replicate_succ, calls_cons, h, Option.bind_some, ih]

/-- With the events that are left over handed in again and again, it comes to rest in `r`. -/
def Rests (plan : List ε → σ → Option (σ × Nat)) (c : σ × List ε) (r : Option σ) : Prop :=
  ∃ N, ∀ n, N ≤ n → (calls plan (List.replicate n []) c).map Prod.fst = r

theorem rests_of_fixed (h : call plan (s, pending) [] = some (s, pending)) :
    Rests plan (s, pending) (some s) := by
  refine ⟨0, fun n _ => ?_⟩
  rw [calls_replicate_of_fixed h]
  rfl

theorem rests_of_call_none (h : call plan c [] = none) : Rests plan c none := by
  refine ⟨1, fun n hn => ?_⟩
  obtain ⟨m, rfl⟩ := Nat.exists_eq_add_of_le' hn
  rw [replicate_succ, calls_cons, h]
  rfl

theorem rests_of_call {c' : σ × List ε} {r : Option σ} (h : call plan c [] = some c')
    (hrests : Rests plan c' r) : Rests plan c r := by
  obtain ⟨N, hN⟩ := hrests
  refine ⟨N + 1, fun n hn => ?_⟩
  obtain ⟨m, rfl⟩ := Nat.exists_eq_add_of_le' (Nat.le_trans (Nat.le_add_left 1 N) hn)
  rw [replicate_succ, calls_cons, h, Option.bind_some]
  exact hN m (Nat.le_of_succ_le_succ hn)

theorem ends_of_calls {r : Option σ}
    (hcalls : calls plan batches (s, []) = some c) (h : Rests plan c r) :
    Ends plan batches s r := by
  obtain ⟨N, hN⟩ := h
  refine ⟨N, fun n hn => ?_⟩
  rw [calls_append, hcalls]
  exact hN n hn

theorem ends_of_fixed {s' : σ} (hcalls : calls plan batches (s, []) = some (s', pending))
    (hfixed : call plan (s', pending) [] = some (s', pending)) :
    Ends plan batches s (some s') :=
  ends_of_calls hcalls (rests_of_fixed hfixed)

theorem ends_of_calls_none (h : calls plan batches (s, []) = none) : Ends plan batches s none := by
  refine ⟨0, fun n _ => ?_⟩
  rw [calls_append, h]
  rfl

theorem Ends.unique {r r' : Option σ} (h : Ends plan batches s r) (h' : Ends plan batches s r') :
    r = r' := by
  obtain ⟨N, hN⟩ := h
  obtain ⟨N', hN'⟩ := h'
  rw [← hN (max N N') (Nat.le_max_left N N'), hN' (max N N') (Nat.le_max_right N N')]

/-- What a call makes of the events that wait, with the ones that come later in `rest`. -/
structure Absorbs (plan : List ε → σ → Option (σ × Nat)) (fate : σ → List ε → Option σ)
    (Ok : σ → List ε → Prop) (rank : σ → Nat) (s : σ) (events rest : List ε) : Prop where
  fails : plan events s = none → fate s (events ++ rest) = none
  ok : ∀ s' n, plan events s = some (s', n) → Ok s' (events.drop n ++ rest)
  fate_eq : ∀ s' n, plan events s = some (s', n) →
    fate s' (events.drop n ++ rest) = fate s (events ++ rest)
  /-- A call that processes nothing has come to the end, or comes closer to it. -/
  progress : ∀ s' n, plan events s = some (s', n) → n = 0 →
    s' = s ∧ fate s events = some s ∨ rank s' < rank s

section Fate

variable {fate : σ → List ε → Option σ} {Ok : σ → List ε → Prop} {rank : σ → Nat}

theorem absorbs_of_none {events rest : List ε} (hplan : plan events s = none)
    (hfate : fate s (events ++ rest) = none) : Absorbs plan fate Ok rank s events rest where
  fails _ := hfate
  ok _ _ h := nomatch hplan.symm.trans h
  fate_eq _ _ h := nomatch hplan.symm.trans h
  progress _ _ h := nomatch hplan.symm.trans h

theorem absorbs_of_some {events rest : List ε} {s' : σ} {n : Nat}
    (hplan : plan events s = some (s', n)) (hok : Ok s' (events.drop n ++ rest))
    (hfate : fate s' (events.drop n ++ rest) = fate s (events ++ rest))
    (hprogress : n = 0 → s' = s ∧ fate s events = some s ∨ rank s' < rank s) :
    Absorbs plan fate Ok rank s events rest where
  fails h := nomatch hplan.symm.trans h
  ok _ _ h := by
    cases hplan.symm.trans h
    exact hok
  fate_eq _ _ h := by
    cases hplan.symm.trans h
    exact hfate
  progress _ _ h := by
    cases hplan.symm.trans h
    exact hprogress

variable (habsorbs : ∀ s e es rest, Ok s (e :: es ++ rest) →
  Absorbs plan fate Ok rank s (e :: es) rest)
include habsorbs

theorem fate_calls (batches : List (List ε)) (hok : Ok c.1 (c.2 ++ batches.flatten)) :
    match calls plan batches c with
    | none => fate c.1 (c.2 ++ batches.flatten) = none
    | some c' => Ok c'.1 c'.2 ∧ fate c'.1 c'.2 = fate c.1 (c.2 ++ batches.flatten) := by
  induction batches generalizing c with
  | nil =>
    rw [flatten_nil, append_nil] at hok ⊢
    exact ⟨hok, rfl⟩
  | cons batch batches ih =>
    rw [flatten_cons, ← append_assoc] at hok ⊢
    rw [calls_cons]
    cases hevents : c.2 ++ batch with
    | nil =>
      rw [hevents] at hok
      have hcall : call plan c batch = some (c.1, []) := by
        unfold call
        rw [hevents]
      rw [hcall]
      exact ih (c := (c.1, [])) hok
    | cons e es =>
      rw [hevents] at hok
      rw [call_of_cons hevents]
      have habsorb := habsorbs c.1 e es batches.flatten hok
      cases hplan : plan (e :: es) c.1 with
      | none =>
        exact habsorb.fails hplan
      | some r =>
        have hrest := ih (c := (r.1, (e :: es).drop r.2)) (habsorb.ok r.1 r.2 hplan)
        rw [habsorb.fate_eq r.1 r.2 hplan] at hrest
        exact hrest

variable (hnil : ∀ s, fate s [] = some s)
include hnil

/-- Handing in what is left comes to an end. -/
theorem rests_of_absorbs (c : σ × List ε) (hok : Ok c.1 c.2) : Rests plan c (fate c.1 c.2) := by
  -- on the number of events that are left, then on the rank
  induction hlen : c.2.length using Nat.strongRecOn generalizing c with
  | ind len ihlen =>
  induction hrank : rank c.1 using Nat.strongRecOn generalizing c with
  | ind k ihrank =>
  obtain ⟨s, pending⟩ := c
  cases pending with
  | nil =>
    rw [hnil]
    exact rests_of_fixed rfl
  | cons e es =>
    have habsorb := habsorbs s e es [] (by rwa [append_nil])
    have hcall : call plan (s, e :: es) [] =
        (plan (e :: es) s).map fun r => (r.1, (e :: es).drop r.2) :=
      call_of_cons (append_nil (e :: es))
    cases hplan : plan (e :: es) s with
    | none =>
      have hnone := habsorb.fails hplan
      rw [append_nil] at hnone
      rw [hplan] at hcall
      rw [hnone]
      exact rests_of_call_none hcall
    | some r =>
      obtain ⟨s', n⟩ := r
      have hok' := habsorb.ok s' n hplan
      have hfate := habsorb.fate_eq s' n hplan
      rw [append_nil] at hok' hfate
      rw [append_nil] at hfate
      rw [hplan] at hcall
      -- one call, and then what the call leaves
      have hstep : Rests plan (s', (e :: es).drop n) (fate s' ((e :: es).drop n)) →
          Rests plan (s, e :: es) (fate s (e :: es)) := fun hrests =>
        rests_of_call hcall (hfate ▸ hrests)
      cases n with
      | zero =>
        rcases habsorb.progress s' 0 hplan rfl with ⟨rfl, hend⟩ | hlt
        · rw [hend]
          exact rests_of_fixed hcall
        · exact hstep (ihrank (rank s') (hrank ▸ hlt) (s', e :: es) hok' hlen rfl)
      | succ n =>
        refine hstep (ihlen _ ?_ (s', (e :: es).drop (n + 1)) hok' rfl)
        rw [← hlen, drop_succ_cons, length_drop, length_cons]
        exact Nat.lt_succ_of_le (Nat.sub_le _ _)

/-- The run ends in what the events come to, however they are cut into batches. -/
theorem ends_of_absorbs (hok : Ok s batches.flatten) :
    Ends plan batches s (fate s batches.flatten) := by
  have hcalls := fate_calls habsorbs batches (c := (s, [])) hok
  cases hrun : calls plan batches (s, []) with
  | none =>
    rw [hrun] at hcalls
    have hnone : fate s batches.flatten = none := hcalls
    rw [hnone]
    exact ends_of_calls_none hrun
  | some c =>
    rw [hrun] at hcalls
    obtain ⟨hok', hfate⟩ := hcalls
    have hfate' : fate c.1 c.2 = fate s batches.flatten := hfate
    rw [← hfate']
    exact ends_of_calls hrun (rests_of_absorbs habsorbs hnil c hok')

end Fate

end OpenDsn.Lib
