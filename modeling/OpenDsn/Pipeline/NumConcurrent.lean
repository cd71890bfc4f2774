import OpenDsn.Pipeline.NumAssign

/-!
# Concurrent reservations of sector numbers

`storage/pipeline/numassign.go`: `NumReserve` and `NumReserveCount` hold the mutex `sclk`,
`NumFree` does not take it. Here the calls without force are taken apart into their reads and
writes of the datastore, which interleave in any order that the mutex allows.

* `alone_reserve`, `alone_free`: a call with no other call beside it does what the functions of
  `NumAssign` do;
* `reserved_agrees_of_serial`: if no call writes while another one has read, the set of all
  reserved numbers is the union of the named ones whenever no call is in progress;
* `reservation_lost`: `NumFree` writes back a set from before a `NumReserve`.
-/

set_option linter.unusedSectionVars false

namespace OpenDsn.Pipeline

open Lib Lib.Runs Option

section

variable [BitFields]

/-- Where a call is, and what it has read. -/
inductive Phase
  /-- `numReserveLocked` starts. -/
  | reserve (name : Text) (reserving : BitField)
  /-- There is no reservation of this name. -/
  | unnamed (name : Text) (reserving : BitField)
  /-- All reserved numbers are loaded. -/
  | loaded (name : Text) (reserving all : BitField)
  /-- The numbers collide with no others. -/
  | approved (name : Text) (reserving new : BitField)
  /-- The reservation is saved. -/
  | saved (name : Text) (new : BitField)
  /-- `NumReserveCount` starts. -/
  | reserveCount (name : Text) (count : Nat)
  | countLoaded (name : Text) (count : Nat) (all : BitField)
  /-- `NumFree` starts. -/
  | free (name : Text)
  /-- The reservation is loaded. -/
  | freeNamed (name : Text) (res : BitField)
  /-- All reserved numbers are loaded. -/
  | freeLoaded (name : Text) (new : BitField)
  /-- The numbers that remain are saved. -/
  | freeSaved (name : Text)

/-- The next read or write of a call, with the answer of `StateMinerAllocated`, and its next
phase if the call is not over. -/
def Phase.advance (stateAllocated : Option BitField) (s : NumStore) :
    Phase → NumStore × Option Phase
  | .reserve name reserving =>
      (s, if validName name = true ∧ s.named.get? name = none then some (.unnamed name reserving)
        else none)
  | .unnamed name reserving => (s, some (.loaded name reserving s.allReserved))
  | .loaded name reserving all =>
      (s, match stateAllocated with
        | none => none
        | some stateAllocated =>
            match newReserved (assignerMeta all s.allAllocated stateAllocated) [] reserving
                false with
            | .error _ => none
            | .ok new => some (.approved name reserving new))
  | .approved name reserving new =>
      ({ s with named := s.named.insert name reserving }, some (.saved name new))
  | .saved _ new => ({ s with reserved := some new }, none)
  | .reserveCount name count => (s, some (.countLoaded name count s.allReserved))
  | .countLoaded name count all =>
      (s, match stateAllocated with
        | none => none
        | some stateAllocated =>
            (freeNumbers (assignerMeta all s.allAllocated stateAllocated) count).map
              (.reserve name))
  | .free name =>
      (s, if validName name = true then (s.named.get? name).map (.freeNamed name) else none)
  | .freeNamed name res => (s, s.reserved.map fun all => .freeLoaded name (diff all res))
  | .freeLoaded name new => ({ s with reserved := some new }, some (.freeSaved name))
  | .freeSaved name => ({ s with named := s.named.erase name }, none)

abbrev CallId := Nat

structure NumSystem where
  store : NumStore
  /-- The call that holds the mutex. -/
  sclk : Option CallId
  calls : Table CallId Phase

inductive NumEvent
  | reserve (id : CallId) (name : Text) (reserving : BitField)
  | reserveCount (id : CallId) (name : Text) (count : Nat)
  | free (id : CallId) (name : Text)
  /-- The next read or write of a call. -/
  | advance (id : CallId) (stateAllocated : Option BitField)

namespace NumSystem

/-- A call that takes the mutex. -/
def lock (s : NumSystem) (id : CallId) (phase : Phase) : Option NumSystem :=
  if s.sclk = none ∧ s.calls.get? id = none then
    some { s with sclk := some id, calls := s.calls.insert id phase }
  else none

/-- The call is over and releases the mutex if it has it. -/
def finish (s : NumSystem) (id : CallId) : NumSystem :=
  { s with
    sclk := if s.sclk = some id then none else s.sclk
    calls := s.calls.erase id }

def step (s : NumSystem) : NumEvent → Option NumSystem
  | .reserve id name reserving => s.lock id (.reserve name reserving)
  | .reserveCount id name count => s.lock id (.reserveCount name count)
  | .free id name =>
      if s.calls.get? id = none then some { s with calls := s.calls.insert id (.free name) }
      else none
  | .advance id stateAllocated =>
      match s.calls.get? id with
      | none => none
      | some phase =>
          match phase.advance stateAllocated s.store with
          | (store, some phase') => some { s with store, calls := s.calls.insert id phase' }
          | (store, none) => some ({ s with store }.finish id)

end NumSystem

/-- The next step of the call is a write. -/
def Phase.writes : Phase → Bool
  | .approved .. | .saved .. | .freeLoaded .. | .freeSaved .. => true
  | _ => false

/-- The call has read nothing that it relies on. -/
def Phase.unread : Phase → Bool
  | .reserve .. | .reserveCount .. | .free .. => true
  | _ => false

/-- No call writes while another one has read. -/
def NumSystem.Serial (s : NumSystem) : NumEvent → Prop
  | .advance id _ => ∀ phase ∈ s.calls.get? id, phase.writes = true →
      ∀ other ∈ s.calls.pairs, other.1 ≠ id → other.2.unread = true
  | _ => True

instance (s : NumSystem) : (e : NumEvent) → Decidable (s.Serial e)
  | .advance id _ => inferInstanceAs (Decidable (∀ phase ∈ s.calls.get? id, phase.writes = true →
      ∀ other ∈ s.calls.pairs, other.1 ≠ id → other.2.unread = true))
  | .reserve .. | .reserveCount .. | .free .. => isTrue trivial

/-! ## A call alone -/

/-- The rest of a call with no other call beside it, where `StateMinerAllocated` gives one
answer. -/
def Phase.alone (stateAllocated : Option BitField) : Nat → NumStore → Phase → NumStore
  | 0, s, _ => s
  | fuel + 1, s, phase =>
      match phase.advance stateAllocated s with
      | (s', some phase') => alone stateAllocated fuel s' phase'
      | (s', none) => s'

/-- The store after a call. -/
def storeAfter (s : NumStore) : Except NumError NumStore → NumStore
  | .ok s' => s'
  | .error _ => s

theorem alone_reserve (stateAllocated : Option BitField) (s : NumStore) (name : Text)
    (reserving : BitField) :
    (Phase.reserve name reserving).alone stateAllocated 5 s =
      storeAfter s (numReserveLocked stateAllocated s name reserving false) := by
  unfold numReserveLocked currentReservation numAssignerMetaLocked
  cases hvalid : validName name with
  | false => simp [Phase.alone, Phase.advance, hvalid, storeAfter]
  | true =>
    cases hname : s.named.get? name with
    | some cur => simp [Phase.alone, Phase.advance, hvalid, hname, storeAfter]
    | none =>
      cases stateAllocated with
      | none => simp [Phase.alone, Phase.advance, hvalid, hname, storeAfter]
      | some stateAllocated =>
        cases hnew : newReserved (assignerMeta s.allReserved s.allAllocated stateAllocated) []
            reserving false with
        | error e | ok new => simp [Phase.alone, Phase.advance, hvalid, hname, hnew, storeAfter]

theorem alone_free (stateAllocated : Option BitField) (s : NumStore) (name : Text) :
    (Phase.free name).alone stateAllocated 4 s = storeAfter s (numFree s name) := by
  unfold numFree
  cases hvalid : validName name with
  | false => simp [Phase.alone, Phase.advance, hvalid, storeAfter]
  | true =>
    cases hname : s.named.get? name with
    | none => simp [Phase.alone, Phase.advance, hvalid, hname, storeAfter]
    | some res =>
      cases hall : s.reserved with
      | none | some all => simp [Phase.alone, Phase.advance, hvalid, hname, hall, storeAfter]

/-! ## Calls that do not overlap -/

namespace NumConcurrentLemmas

open NumAssignLemmas Table

variable {s s' : NumSystem} {store : NumStore} {phase : Phase} {id : CallId}

/-- A call is between its two writes. -/
def midway : Phase → Bool
  | .saved .. | .freeSaved .. => true
  | _ => false

/-- What a call knows of the store, as long as no other call writes. -/
def Knows (s : NumStore) : Phase → Prop
  | .unnamed name _ => s.named.get? name = none
  | .loaded name _ all => s.named.get? name = none ∧ all = s.allReserved
  | .approved name reserving new => s.named.get? name = none ∧
      (∀ x, covers reserving x = true → covers s.allReserved x = false) ∧
      ∀ x, covers new x = true ↔ covers s.allReserved x = true ∨ covers reserving x = true
  | .saved _ new => { s with reserved := some new }.Tidy
  | .freeNamed name res => s.named.get? name = some res
  | .freeLoaded name new => ∃ res, s.named.get? name = some res ∧
      ∀ x, covers new x = true ↔ covers s.allReserved x = true ∧ covers res x = false
  | .freeSaved name => { s with named := s.named.erase name }.Tidy
  | .reserve .. | .reserveCount .. | .countLoaded .. | .free .. => True

theorem knows_of_unread (h : phase.unread = true) {s : NumStore} : Knows s phase := by
  cases phase with
  | reserve | reserveCount | free => exact trivial
  | unnamed | loaded | approved | saved | countLoaded | freeNamed | freeLoaded | freeSaved =>
    cases h

theorem not_midway_of_unread (h : phase.unread = true) : midway phase = false := by
  cases phase with
  | saved | freeSaved => cases h
  | reserve | unnamed | loaded | approved | reserveCount | countLoaded | free | freeNamed
  | freeLoaded => rfl

/-- Reading leaves the store as it is, and the call knows what it has read. -/
theorem advance_read (chain : Option BitField) (h : Knows store phase)
    (hread : phase.writes = false) :
    (phase.advance chain store).1 = store ∧ midway phase = false ∧
      ∀ phase' ∈ (phase.advance chain store).2, Knows store phase' ∧ midway phase' = false := by
  cases phase with
  | approved | saved | freeLoaded | freeSaved => cases hread
  | reserve name reserving =>
    refine ⟨rfl, rfl, fun phase' hphase => ?_⟩
    obtain ⟨⟨-, hname⟩, heq⟩ := ite_none_right_eq_some.mp hphase
    cases heq
    exact ⟨hname, rfl⟩
  | unnamed name reserving =>
    refine ⟨rfl, rfl, fun phase' hphase => ?_⟩
    cases hphase
    exact ⟨⟨h, rfl⟩, rfl⟩
  | loaded name reserving all =>
    obtain ⟨hname, rfl⟩ := h
    refine ⟨rfl, rfl, fun phase' hphase => ?_⟩
    simp only [Phase.advance, mem_def] at hphase
    split at hphase
    · cases hphase
    split at hphase
    · cases hphase
    next new hnew =>
    cases hphase
    obtain ⟨rfl, hfree⟩ := newReserved_ok hnew
    have hdiff : ∀ x, covers (diff store.allReserved []) x = covers store.allReserved x := by
      intro x
      simp [covers_diff, covers]
    refine ⟨⟨hname, fun x hx => ?_, fun x => ?_⟩, rfl⟩
    · exact (hdiff x).symm.trans (hfree rfl x hx).1
    · rw [covers_union, Bool.or_eq_true_iff]
      exact or_congr_left (by rw [← hdiff x]; rfl)
  | reserveCount name count =>
    refine ⟨rfl, rfl, fun phase' hphase => ?_⟩
    cases hphase
    exact ⟨trivial, rfl⟩
  | countLoaded name count all =>
    refine ⟨rfl, rfl, fun phase' hphase => ?_⟩
    simp only [Phase.advance, mem_def] at hphase
    split at hphase
    · cases hphase
    obtain ⟨free, -, rfl⟩ := map_eq_some_iff.mp hphase
    exact ⟨trivial, rfl⟩
  | free name =>
    refine ⟨rfl, rfl, fun phase' hphase => ?_⟩
    obtain ⟨-, heq⟩ := ite_none_right_eq_some.mp hphase
    obtain ⟨res, hres, rfl⟩ := map_eq_some_iff.mp heq
    exact ⟨hres, rfl⟩
  | freeNamed name res =>
    refine ⟨rfl, rfl, fun phase' hphase => ?_⟩
    obtain ⟨all, hall, rfl⟩ := map_eq_some_iff.mp hphase
    refine ⟨⟨res, h, fun x => ?_⟩, rfl⟩
    unfold NumStore.allReserved
    rw [covers_diff, Bool.and_eq_true_iff, Bool.not_eq_true', hall]
    rfl

/-- The first write of a call, from a tidy store. -/
theorem advance_first (chain : Option BitField) (h : Knows store phase)
    (hwrite : phase.writes = true) (hmid : midway phase = false) (htidy : store.Tidy) :
    ∃ phase', (phase.advance chain store).2 = some phase' ∧ midway phase' = true ∧
      Knows (phase.advance chain store).1 phase' := by
  cases phase with
  | reserve | unnamed | loaded | reserveCount | countLoaded | free | freeNamed => cases hwrite
  | saved | freeSaved => cases hmid
  | approved name reserving new =>
    obtain ⟨hname, hfree, hall⟩ := h
    exact ⟨_, rfl, rfl, tidy_insert htidy hname hfree (fun name' => get?_insert name') hall⟩
  | freeLoaded name new =>
    obtain ⟨res, hres, hall⟩ := h
    exact ⟨_, rfl, rfl, tidy_erase htidy hres (fun name' => get?_erase name') hall⟩

/-- The second write of a call ends it and leaves a tidy store. -/
theorem advance_second (chain : Option BitField) (h : Knows store phase)
    (hmid : midway phase = true) :
    (phase.advance chain store).2 = none ∧ (phase.advance chain store).1.Tidy := by
  cases phase with
  | saved name new | freeSaved name => exact ⟨rfl, h⟩
  | reserve | unnamed | loaded | approved | reserveCount | countLoaded | free | freeNamed
  | freeLoaded => cases hmid

/-- Each call knows the store, and the store is tidy when no call is between its writes. -/
structure Serialised (s : NumSystem) : Prop where
  knows : ∀ id phase, s.calls.get? id = some phase → Knows s.store phase
  tidy : (∀ id phase, s.calls.get? id = some phase → midway phase = false) → s.store.Tidy

theorem serialised_insert (h : Serialised s) (hid : s.calls.get? id = none)
    (hphase : phase.unread = true) (sclk : Option CallId) :
    Serialised { s with sclk, calls := s.calls.insert id phase } where
  knows := forall_insert (knows_of_unread hphase) h.knows
  tidy hall := by
    refine h.tidy fun id' phase' hget => hall id' phase' ?_
    rw [get?_insert, if_neg, hget]
    rintro rfl
    rw [hid] at hget
    cases hget

theorem Serialised.tidy_of_others (h : Serialised s) (hid : s.calls.get? id = some phase)
    (hmid : midway phase = false)
    (hothers : ∀ id' phase', id' ≠ id → s.calls.get? id' = some phase' → midway phase' = false) :
    s.store.Tidy := by
  refine h.tidy fun id' phase' hget => ?_
  by_cases heq : id' = id
  · subst heq
    rwa [← mem_unique hid hget]
  · exact hothers id' phase' heq hget

theorem serialised_advance (chain : Option BitField) (h : Serialised s)
    (hid : s.calls.get? id = some phase)
    (hserial : phase.writes = true →
      ∀ id' phase', id' ≠ id → s.calls.get? id' = some phase' → phase'.unread = true)
    (hstore : s'.store = (phase.advance chain s.store).1)
    (hcalls : ∀ id', s'.calls.get? id' =
      if id' = id then (phase.advance chain s.store).2 else s.calls.get? id') :
    Serialised s' := by
  have hknows := h.knows id phase hid
  cases hwrites : phase.writes with
  | false =>
    obtain ⟨hsame, hmid, hnext⟩ := advance_read chain hknows hwrites
    rw [hsame] at hstore
    refine ⟨fun id' phase' hget => ?_, fun hall => ?_⟩
    · rw [hcalls] at hget
      rw [hstore]
      split at hget
      · exact (hnext phase' hget).1
      · exact h.knows id' phase' hget
    · rw [hstore]
      refine h.tidy_of_others hid hmid fun id' phase' heq hget => ?_
      exact hall id' phase' (by rw [hcalls, if_neg heq, hget])
  | true =>
    -- every other call has read nothing, so that it knows any store
    have hothers := hserial hwrites
    cases hmid : midway phase with
    | false =>
      have htidy := h.tidy_of_others hid hmid fun id' phase' heq hget =>
        not_midway_of_unread (hothers id' phase' heq hget)
      obtain ⟨next, hnext, hmidway, hknows'⟩ := advance_first chain hknows hwrites hmid htidy
      refine ⟨fun id' phase' hget => ?_, fun hall => ?_⟩
      · rw [hcalls] at hget
        split at hget
        · rw [hstore, ← mem_unique hnext hget]
          exact hknows'
        · next heq => exact knows_of_unread (hothers id' phase' heq hget)
      · have hno := hall id next (by rw [hcalls, if_pos rfl, hnext])
        rw [hmidway] at hno
        cases hno
    | true =>
      obtain ⟨hnext, htidy⟩ := advance_second chain hknows hmid
      refine ⟨fun id' phase' hget => ?_, fun _ => hstore ▸ htidy⟩
      rw [hcalls] at hget
      split at hget
      · rw [hnext] at hget
        cases hget
      · next heq => exact knows_of_unread (hothers id' phase' heq hget)

theorem serialised_step {e : NumEvent} (h : Serialised s) (hserial : s.Serial e)
    (hstep : s.step e = some s') : Serialised s' := by
  have hlock : ∀ id phase, phase.unread = true → s.lock id phase = some s' → Serialised s' := by
    intro id phase hunread hlock
    obtain ⟨⟨-, hid⟩, heq⟩ := ite_none_right_eq_some.mp hlock
    exact some.inj heq ▸ serialised_insert h hid hunread (some id)
  cases e with
  | reserve id name reserving | reserveCount id name count => exact hlock id _ rfl hstep
  | free id name =>
    obtain ⟨hid, heq⟩ := ite_none_right_eq_some.mp hstep
    exact some.inj heq ▸ serialised_insert h hid rfl s.sclk
  | advance id chain =>
    simp only [NumSystem.step] at hstep
    split at hstep
    · cases hstep
    next phase hid =>
    have hothers : phase.writes = true → ∀ id' phase', id' ≠ id →
        s.calls.get? id' = some phase' → phase'.unread = true :=
      fun hwrites id' phase' hne hget =>
        hserial phase hid hwrites (id', phase') (mem_pairs.mpr hget) hne
    refine serialised_advance chain h hid hothers ?_ fun id' => ?_
    · split at hstep
      · next store next hadv => cases hstep; rw [hadv]
      · next store hadv => cases hstep; rw [hadv]; rfl
    · split at hstep
      · next store next hadv =>
        cases hstep
        rw [hadv]
        exact get?_insert id'
      · next store hadv =>
        cases hstep
        rw [hadv]
        exact get?_erase id'

end NumConcurrentLemmas

open NumConcurrentLemmas in
/-- In every run in which no call writes while another one has read, the set of all reserved
numbers is the union of the named ones in every state without a call in progress. -/
theorem reserved_agrees_of_serial {store : NumStore} {events : List NumEvent}
    {states : List NumSystem} (hstore : store.Tidy)
    (h : trace NumSystem.step ⟨store, none, ∅⟩ events = some states)
    (hserial : Guarded NumSystem.step NumSystem.Serial ⟨store, none, ∅⟩ events) :
    ∀ s ∈ states, (∀ id, s.calls.get? id = none) → s.store.Agrees := by
  have hall : ∀ s ∈ states, Serialised s :=
    trace_forall_guarded (fun s e s' hs hg hstep => serialised_step hs hg hstep)
      ⟨fun _ _ hget => (by cases hget), fun _ => hstore⟩ h hserial
  intro s hs hnone
  refine ((hall s hs).tidy fun id phase hget => ?_).agrees
  rw [hnone id] at hget
  cases hget

end

/-- `NumReserve` of a new name, run to its end. -/
def reserveEvents (id : CallId) (name : Text) (reserving : BitField) : List NumEvent :=
  .reserve id name reserving :: List.replicate 5 (.advance id (some []))

theorem reserved_agrees_of_serial_freed : ∃ states,
    trace NumSystem.step ⟨emptyStore, none, ∅⟩ (reserveEvents 1 ['a'] [⟨true, 1⟩] ++
        .free 2 ['a'] :: List.replicate 4 (.advance 2 none)) = some states ∧
      ∀ s ∈ states, (∀ id, s.calls.get? id = none) → s.store.Agrees :=
  exists_trace_of (by decide) fun _ h => reserved_agrees_of_serial tidy_emptyStore h (by decide)

/-- While `a` is freed, `b` is reserved: `NumFree` has loaded the numbers of `a` alone and writes
back none, so that `b` is no longer among all reserved numbers. -/
theorem reservation_lost : ∃ states,
    trace NumSystem.step ⟨emptyStore, none, ∅⟩ (reserveEvents 1 ['a'] [⟨true, 1⟩] ++
        .free 2 ['a'] :: List.replicate 2 (.advance 2 none) ++
        reserveEvents 3 ['b'] [⟨false, 1⟩, ⟨true, 1⟩] ++ List.replicate 2 (.advance 2 none)) =
      some states ∧
      ∃ s ∈ states, s.calls = ∅ ∧ s.store.InReservation 1 ∧
        covers s.store.allReserved 1 = false := by
  refine exists_trace_imp (p := fun states => ∃ s ∈ states, s.calls.entries = [] ∧
    s.store.named.get? ['b'] = some [⟨false, 1⟩, ⟨true, 1⟩] ∧
    covers s.store.allReserved 1 = false) (by decide) ?_
  rintro states - ⟨s, hs, hcalls, hname, hall⟩
  exact ⟨s, hs, AList.ext hcalls, ⟨['b'], _, hname, rfl⟩, hall⟩

end OpenDsn.Pipeline
