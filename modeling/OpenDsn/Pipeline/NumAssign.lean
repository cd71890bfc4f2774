import OpenDsn.Lib.Except
import OpenDsn.Lib.Run
import OpenDsn.Lib.RunSelect
import OpenDsn.Lib.Table
import OpenDsn.Lib.Text

/-!
# Sector numbers

`storage/pipeline/numassign.go`: the numbers that a miner has allocated, the numbers that are
reserved under a name, and the set of all reserved numbers are records of the datastore. A number
is in use if it is reserved, allocated, or allocated on chain. The calls are here taken one after
the other, with a datastore that does not fail; the asking for the numbers allocated on chain may
fail. The operations of the bit field library are any `BitFields`.

* `numbers_assigned`: in every run without force, `NextSectorNumber` returns the least number
  that is not in use, and no number twice, and `NumReserveCount` reserves the least ones;
* `reserved_agrees_iff`: in a run with force the set of all reserved numbers is the union of the
  named ones, exactly when no reservation is replaced or freed that shares numbers with another;
* `freed_number_handed_out`: two reservations share a number, and one of them is freed.
-/

set_option linter.unusedSectionVars false

namespace OpenDsn.Pipeline

open Lib Lib.Runs

/-- A set of sector numbers. -/
abbrev BitField := List Run

/-- The records of the datastore. -/
structure NumStore where
  /-- "/storage/sectorsids/reserved" -/
  reserved : Option BitField
  /-- "/storage/sectorsids/allocated" -/
  allocated : Option BitField
  /-- "/storage/nextid", the counter of an older version -/
  nextid : Option Nat
  /-- "/storage/sectorsids/reserved/" and the name -/
  named : Table Text BitField

inductive NumError
  /-- "getting state-allocated sector numbers: %w" -/
  | stateAllocated
  /-- "reservation name contained disallowed characters (allowed: a-z, A-Z, 0-9, '-', '_')" -/
  | disallowedCharacters
  /-- "reservation with this name already exists" -/
  | alreadyExists
  /-- "new reservation is colliding with another existing reservation" -/
  | collidingReservation
  /-- "new reservation is colliding with allocated sector numbers" -/
  | collidingAllocated
  /-- "not enough bits set in field to satisfy slice count" -/
  | slice
  /-- "reservation with this name doesn't exist" -/
  | noReservation
  /-- "all reservations bitfield not found" -/
  | noReserved

/-- `api.NumAssignerMeta`. -/
structure NumAssignerMeta where
  reserved : BitField
  allocated : BitField
  inUse : BitField
  next : Nat

/-- The numbers up to the legacy counter. -/
def legacyAllocated : Option Nat → BitField
  | none => [⟨true, 0⟩]
  | some cur => [⟨true, (cur + 1) % 2 ^ 64⟩]

def NumStore.allReserved (s : NumStore) : BitField := s.reserved.getD []

def NumStore.allAllocated (s : NumStore) : BitField :=
  s.allocated.getD (legacyAllocated s.nextid)

section

variable [BitFields]

/-- What `numAssignerMetaLocked` computes from what it has loaded. -/
def assignerMeta (reserved allocated stateAllocated : BitField) : NumAssignerMeta :=
  let inUse := union (union reserved allocated) stateAllocated
  ⟨reserved, allocated, inUse, firstGap inUse⟩

/-- `numAssignerMetaLocked`, with the answer of `StateMinerAllocated`. -/
def numAssignerMetaLocked (stateAllocated : Option BitField) (s : NumStore) :
    Except NumError NumAssignerMeta :=
  match stateAllocated with
  | none => .error .stateAllocated
  | some stateAllocated => .ok (assignerMeta s.allReserved s.allAllocated stateAllocated)

def nextSectorNumber (stateAllocated : Option BitField) (s : NumStore) :
    Except NumError (Nat × NumStore) :=
  match numAssignerMetaLocked stateAllocated s with
  | .error e => .error e
  | .ok am =>
      .ok (am.next,
        { s with allocated := some (set am.allocated am.next), nextid := some am.next })

/-- `reservationKey` accepts the name. -/
def validName (name : Text) : Bool :=
  name ≠ [] && name.all fun c =>
    ('a' ≤ c && c ≤ 'z') || ('A' ≤ c && c ≤ 'Z') || ('0' ≤ c && c ≤ '9') || c = '_' || c = '-'

/-- The reservation to be replaced, which is empty for a new name. -/
def currentReservation (s : NumStore) (name : Text) (force : Bool) : Except NumError BitField :=
  match s.named.get? name with
  | some cur => if force then .ok cur else .error .alreadyExists
  | none => .ok []

/-- The set of all reserved numbers with `reserving` in place of `cur`. -/
def newReserved (nm : NumAssignerMeta) (cur reserving : BitField) (force : Bool) :
    Except NumError BitField :=
  let allReserved := diff nm.reserved cur
  if count (inter allReserved reserving) ≠ 0 ∧ force = false then .error .collidingReservation
  else if count (inter nm.allocated reserving) ≠ 0 ∧ force = false then .error .collidingAllocated
  else .ok (union allReserved reserving)

def numReserveLocked (stateAllocated : Option BitField) (s : NumStore) (name : Text)
    (reserving : BitField) (force : Bool) : Except NumError NumStore :=
  if validName name = false then .error .disallowedCharacters
  else
    match currentReservation s name force with
    | .error e => .error e
    | .ok cur =>
        match numAssignerMetaLocked stateAllocated s with
        | .error e => .error e
        | .ok nm =>
            match newReserved nm cur reserving force with
            | .error e => .error e
            | .ok reserved =>
                .ok { s with reserved := some reserved, named := s.named.insert name reserving }

/-- The `count` numbers that `NumReserveCount` reserves. -/
def freeNumbers (nm : NumAssignerMeta) (count : Nat) : Option BitField :=
  let usedCount := Runs.count nm.inUse
  let mask : BitField := [⟨true, (count + usedCount) % 2 ^ 64⟩]
  slice (diff mask nm.inUse) count

/-- `NumReserveCount`, which asks for the numbers allocated on chain twice. -/
def numReserveCount (stateAllocated stateAllocated' : Option BitField) (s : NumStore)
    (name : Text) (count : Nat) : Except NumError (BitField × NumStore) :=
  match numAssignerMetaLocked stateAllocated s with
  | .error e => .error e
  | .ok nm =>
      match freeNumbers nm count with
      | none => .error .slice
      | some free =>
          match numReserveLocked stateAllocated' s name free false with
          | .error e => .error e
          | .ok s' => .ok (free, s')

def numFree (s : NumStore) (name : Text) : Except NumError NumStore :=
  if validName name = false then .error .disallowedCharacters
  else
    match s.named.get? name with
    | none => .error .noReservation
    | some res =>
        match s.reserved with
        | none => .error .noReserved
        | some allRes =>
            .ok { s with reserved := some (diff allRes res), named := s.named.erase name }

/-! ## Runs of calls -/

structure Miner where
  store : NumStore
  /-- The numbers allocated on chain. -/
  onChain : BitField
  /-- The numbers that `NextSectorNumber` has returned. -/
  returned : List Nat

/-- A call, where `api` says whether `StateMinerAllocated` answers, or numbers that get allocated
on chain. -/
inductive NumCall
  | next (api : Bool)
  | reserve (name : Text) (reserving : BitField) (force : Bool) (api : Bool)
  | reserveCount (name : Text) (count : Nat) (api api' : Bool)
  | free (name : Text)
  | land (numbers : BitField)

namespace Miner

variable (m : Miner)

def stateAllocated (api : Bool) : Option BitField :=
  if api then some m.onChain else none

/-- A call that fails leaves the store as it was. -/
def kept : Except NumError NumStore → Miner
  | .error _ => m
  | .ok s => { m with store := s }

def call : NumCall → Miner
  | .next api =>
      match nextSectorNumber (m.stateAllocated api) m.store with
      | .error _ => m
      | .ok (n, s) => { m with store := s, returned := n :: m.returned }
  | .reserve name reserving force api =>
      m.kept (numReserveLocked (m.stateAllocated api) m.store name reserving force)
  | .reserveCount name count api api' =>
      m.kept ((numReserveCount (m.stateAllocated api) (m.stateAllocated api') m.store name
        count).map Prod.snd)
  | .free name => m.kept (numFree m.store name)
  | .land numbers => { m with onChain := union m.onChain numbers }

end Miner

def numStep (m : Miner) (c : NumCall) : Option Miner := some (m.call c)

section

variable (s : NumStore)

/-- `x` is in a named reservation. -/
def NumStore.InReservation (x : Nat) : Prop :=
  ∃ name res, s.named.get? name = some res ∧ covers res x = true

/-- `x` is in the reservation of a name. -/
def NumStore.InName (name : Text) (x : Nat) : Prop :=
  ∃ res, s.named.get? name = some res ∧ covers res x = true

/-- `x` is in a reservation of another name. -/
def NumStore.InOther (name : Text) (x : Nat) : Prop :=
  ∃ name' res, name' ≠ name ∧ s.named.get? name' = some res ∧ covers res x = true

/-- The set of all reserved numbers is the union of the named ones. -/
def NumStore.Agrees : Prop :=
  ∀ x, covers s.allReserved x = true ↔ s.InReservation x

/-- Besides, no two reservations share a number. -/
structure NumStore.Tidy : Prop where
  agrees : s.Agrees
  disjoint : ∀ name res x, s.named.get? name = some res → covers res x = true → ¬ s.InOther name x

end

section

variable (m : Miner)

/-- Reserved, allocated, or allocated on chain. -/
def Miner.InUse (x : Nat) : Prop :=
  m.store.InReservation x ∨ covers m.store.allAllocated x = true ∨ covers m.onChain x = true

/-- What `NextSectorNumber` and `NumReserveCount` do when they are called next. -/
structure Miner.AssignsLeast : Prop where
  next : ∀ api n s, nextSectorNumber (m.stateAllocated api) m.store = .ok (n, s) →
    n ∉ m.returned ∧ covers m.onChain n = false ∧ ¬ m.store.InReservation n ∧
      IsLeast {x | ¬ m.InUse x} n
  reserveCount : ∀ api api' name count free s,
    numReserveCount (m.stateAllocated api) (m.stateAllocated api') m.store name count =
      .ok (free, s) →
    count + {x | m.InUse x}.ncard < 2 ^ 63 →
    s.named.get? name = some free ∧ Least count {x | ¬ m.InUse x} {x | covers free x = true}

/-- No number of a remaining reservation is handed out next. -/
def Miner.NextSpares : Prop :=
  ∀ api n s, nextSectorNumber (m.stateAllocated api) m.store = .ok (n, s) →
    ¬ m.store.InReservation n

/-- A reservation that is replaced or freed by the call has no number in common with another one,
except for numbers that it is replaced by. -/
def Miner.Unshared : NumCall → Prop
  | .reserve name reserving force api =>
      ∀ s, numReserveLocked (m.stateAllocated api) m.store name reserving force = .ok s →
        ∀ x, m.store.InName name x → m.store.InOther name x → covers reserving x = true
  | .free name =>
      ∀ s, numFree m.store name = .ok s → ∀ x, m.store.InName name x → ¬ m.store.InOther name x
  | _ => True

end

def NumCall.forced : NumCall → Bool
  | .reserve _ _ force _ => force
  | _ => false

namespace NumAssignLemmas

open Table

variable {s s' : NumStore} {m : Miner} {name : Text} {chain chain' : Option BitField}
  {reserving free cur : BitField} {force : Bool} {n count x : Nat}

/-! ### What the calls do -/

variable {api : Bool} {nm : NumAssignerMeta}

theorem numAssignerMetaLocked_ok (h : numAssignerMetaLocked chain s = .ok nm) :
    ∃ stateAllocated, chain = some stateAllocated ∧
      nm.reserved = s.allReserved ∧ nm.allocated = s.allAllocated ∧
      nm.inUse = union (union s.allReserved s.allAllocated) stateAllocated ∧
      nm.next = firstGap nm.inUse := by
  unfold numAssignerMetaLocked at h
  split at h
  · cases h
  next stateAllocated =>
  cases h
  exact ⟨stateAllocated, rfl, rfl, rfl, rfl, rfl⟩

theorem nextSectorNumber_ok (h : nextSectorNumber chain s = .ok (n, s')) :
    ∃ nm, numAssignerMetaLocked chain s = .ok nm ∧ n = nm.next ∧
      s' = { s with allocated := some (set nm.allocated nm.next), nextid := some nm.next } := by
  unfold nextSectorNumber at h
  split at h
  · cases h
  next nm hnm =>
  cases h
  exact ⟨nm, hnm, rfl, rfl⟩

/-- A set has no member in common with another one. -/
theorem count_inter_eq_zero {a b : BitField} :
    Runs.count (inter a b) = 0 ↔ ∀ x, covers a x = true → covers b x = false := by
  rw [count_eq, Finset.card_eq_zero, Finset.eq_empty_iff_forall_notMem]
  refine forall_congr' fun x => ?_
  rw [mem_memberSet, covers_inter, Bool.and_eq_true_iff, not_and, Bool.not_eq_true]

theorem newReserved_ok {reserved : BitField}
    (h : newReserved nm cur reserving force = .ok reserved) :
    reserved = union (diff nm.reserved cur) reserving ∧
      (force = false → ∀ x, covers reserving x = true →
        covers (diff nm.reserved cur) x = false ∧ covers nm.allocated x = false) := by
  unfold newReserved at h
  dsimp only at h
  split at h
  · cases h
  next hres =>
  split at h
  · cases h
  next halloc =>
  cases h
  refine ⟨rfl, fun hforce x hx => ⟨?_, ?_⟩⟩
  · have hzero := count_inter_eq_zero.mp (not_not.mp fun hne => hres ⟨hne, hforce⟩)
    refine Bool.eq_false_iff.mpr fun hd => ?_
    rw [hzero x hd] at hx
    cases hx
  · have hzero := count_inter_eq_zero.mp (not_not.mp fun hne => halloc ⟨hne, hforce⟩)
    refine Bool.eq_false_iff.mpr fun ha => ?_
    rw [hzero x ha] at hx
    cases hx

theorem inName_iff {res : BitField} (hres : s.named.get? name = some res) :
    covers res x = true ↔ s.InName name x := by
  refine ⟨fun hx => ⟨res, hres, hx⟩, ?_⟩
  rintro ⟨res', hres', hx⟩
  rwa [Option.mem_unique hres hres']

theorem not_inName (hnone : s.named.get? name = none) : ¬ s.InName name x := by
  rintro ⟨res, hres, -⟩
  rw [hnone] at hres
  cases hres

theorem currentReservation_ok (h : currentReservation s name force = .ok cur) :
    (∀ x, covers cur x = true ↔ s.InName name x) ∧ (force = false → s.named.get? name = none) := by
  unfold currentReservation at h
  split at h
  · next res hres =>
    split at h
    · next hforce =>
      cases h
      exact ⟨fun x => inName_iff hres, fun hno => absurd hforce (by simp [hno])⟩
    · cases h
  · next hnone =>
    cases h
    exact ⟨fun x => ⟨nofun, fun hx => absurd hx (not_inName hnone)⟩, fun _ => hnone⟩

/-- What `numReserveLocked` stores, and what it has checked without force. -/
theorem numReserveLocked_ok (h : numReserveLocked chain s name reserving force = .ok s') :
    ∃ cur, (∀ x, covers cur x = true ↔ s.InName name x) ∧
      s' = { s with
        reserved := some (union (diff s.allReserved cur) reserving)
        named := s.named.insert name reserving } ∧
      (force = false → s.named.get? name = none ∧
        ∀ x, covers reserving x = true → covers s.allReserved x = false) := by
  unfold numReserveLocked at h
  split at h
  · cases h
  split at h
  · cases h
  next cur hcur =>
  split at h
  · cases h
  next nm hnm =>
  split at h
  · cases h
  next reserved hreserved =>
  cases h
  obtain ⟨hname, hnew⟩ := currentReservation_ok hcur
  obtain ⟨stateAllocated, -, hall, -⟩ := numAssignerMetaLocked_ok hnm
  obtain ⟨hunion, hfree⟩ := newReserved_ok hreserved
  rw [hall] at hunion hfree
  refine ⟨cur, hname, by rw [hunion], fun hforce => ⟨hnew hforce, fun x hx => ?_⟩⟩
  have hd := (hfree hforce x hx).1
  have hc : covers cur x = false :=
    Bool.eq_false_iff.mpr fun hc => not_inName (hnew hforce) ((hname x).mp hc)
  rw [covers_diff, hc] at hd
  simpa using hd

theorem numReserveCount_ok (h : numReserveCount chain chain' s name count = .ok (free, s')) :
    ∃ nm, numAssignerMetaLocked chain s = .ok nm ∧ freeNumbers nm count = some free ∧
      numReserveLocked chain' s name free false = .ok s' := by
  unfold numReserveCount at h
  split at h
  · cases h
  next nm hnm =>
  split at h
  · cases h
  next free' hfree =>
  split at h
  · cases h
  next s'' hs =>
  cases h
  exact ⟨nm, hnm, hfree, hs⟩

theorem numFree_ok (h : numFree s name = .ok s') :
    ∃ res, s.named.get? name = some res ∧
      s' = { s with reserved := some (diff s.allReserved res), named := s.named.erase name } := by
  unfold numFree at h
  split at h
  · cases h
  split at h
  · cases h
  next res hres =>
  split at h
  · cases h
  next allRes hall =>
  cases h
  refine ⟨res, hres, ?_⟩
  unfold NumStore.allReserved
  rw [hall]
  rfl

/-! ### The reservations after a call -/

theorem inReservation_iff : s.InReservation x ↔ s.InOther name x ∨ s.InName name x := by
  constructor
  · rintro ⟨name', res, hres, hx⟩
    by_cases hname : name' = name
    · exact .inr ⟨res, hname ▸ hres, hx⟩
    · exact .inl ⟨name', res, hname, hres, hx⟩
  · rintro (⟨name', res, -, hres, hx⟩ | ⟨res, hres, hx⟩)
    · exact ⟨name', res, hres, hx⟩
    · exact ⟨name, res, hres, hx⟩

theorem inOther_congr (h : ∀ name', name' ≠ name → s'.named.get? name' = s.named.get? name') :
    s'.InOther name x ↔ s.InOther name x := by
  constructor
  · rintro ⟨name', res, hne, hres, hx⟩
    exact ⟨name', res, hne, (h name' hne).symm.trans hres, hx⟩
  · rintro ⟨name', res, hne, hres, hx⟩
    exact ⟨name', res, hne, (h name' hne).trans hres, hx⟩

/-- The reservation of one name is exchanged for the set `new`: the union is kept up exactly if
the numbers that go were not shared with another name. -/
theorem agrees_exchange (name : Text) (cur : BitField) (new : Nat → Prop) (h : s.Agrees)
    (hcur : ∀ x, covers cur x = true ↔ s.InName name x)
    (hothers : ∀ name', name' ≠ name → s'.named.get? name' = s.named.get? name')
    (hname : ∀ x, s'.InName name x ↔ new x)
    (hreserved : ∀ x, covers s'.allReserved x = true ↔
      covers (diff s.allReserved cur) x = true ∨ new x) :
    s'.Agrees ↔ ∀ x, s.InName name x → s.InOther name x → new x := by
  have hbefore : ∀ x, covers s.allReserved x = true ↔ s.InOther name x ∨ s.InName name x :=
    fun x => (h x).trans (inReservation_iff)
  have hdiff : ∀ x, covers (diff s.allReserved cur) x = true ↔
      s.InOther name x ∧ ¬ s.InName name x := by
    intro x
    rw [covers_diff, Bool.and_eq_true_iff, Bool.not_eq_true', hbefore, ← hcur, Bool.not_eq_true]
    constructor
    · rintro ⟨ho | hc, hno⟩
      · exact ⟨ho, hno⟩
      · rw [hno] at hc
        cases hc
    · rintro ⟨ho, hno⟩
      exact ⟨.inl ho, hno⟩
  constructor
  · intro hagree x hx ho
    have hin : s'.InReservation x :=
      (inReservation_iff).mpr (.inl ((inOther_congr hothers).mpr ho))
    rcases (hreserved x).mp ((hagree x).mpr hin) with hd | hnew
    · exact absurd hx ((hdiff x).mp hd).2
    · exact hnew
  · intro hshared x
    rw [hreserved, hdiff, inReservation_iff, inOther_congr hothers, hname]
    constructor
    · rintro (⟨ho, -⟩ | hnew)
      · exact .inl ho
      · exact .inr hnew
    · rintro (ho | hnew)
      · by_cases hx : s.InName name x
        · exact .inr (hshared x hx ho)
        · exact .inl ⟨ho, hx⟩
      · exact .inr hnew

theorem agrees_reserve (h : s.Agrees)
    (hok : numReserveLocked chain s name reserving force = .ok s') :
    s'.Agrees ↔ ∀ x, s.InName name x → s.InOther name x → covers reserving x = true := by
  obtain ⟨cur, hcur, rfl, -⟩ := numReserveLocked_ok hok
  refine agrees_exchange name cur _ h hcur (fun name' hne => ?_) (fun x => ?_) (fun x => ?_)
  · exact (get?_insert name').trans (if_neg hne)
  · exact (inName_iff ((get?_insert name).trans (if_pos rfl))).symm
  · show covers (union _ reserving) x = true ↔ _
    rw [covers_union, Bool.or_eq_true_iff]

theorem agrees_free (h : s.Agrees) (hok : numFree s name = .ok s') :
    s'.Agrees ↔ ∀ x, s.InName name x → ¬ s.InOther name x := by
  obtain ⟨res, hres, rfl⟩ := numFree_ok hok
  refine agrees_exchange name res (fun _ => False) h (fun x => inName_iff hres)
    (fun name' hne => ?_) (fun x => ?_) (fun x => ?_)
  · exact (get?_erase name').trans (if_neg hne)
  · exact iff_of_false (not_inName ((get?_erase name).trans (if_pos rfl))) id
  · exact (or_false _).symm ▸ Iff.rfl

/-! ### Numbers in use -/

section

variable (h : m.store.Agrees) (hnm : numAssignerMetaLocked (m.stateAllocated api) m.store = .ok nm)
include h hnm

theorem covers_inUse : covers nm.inUse x = true ↔ m.InUse x := by
  obtain ⟨stateAllocated, hapi, -, -, hin, -⟩ := numAssignerMetaLocked_ok hnm
  have hchain : stateAllocated = m.onChain := by
    unfold Miner.stateAllocated at hapi
    split at hapi <;> cases hapi
    rfl
  unfold Miner.InUse
  rw [hin, covers_union, covers_union, Bool.or_eq_true_iff, Bool.or_eq_true_iff, h x, hchain,
    or_assoc]

theorem isLeast_next : IsLeast {x | ¬ m.InUse x} nm.next := by
  obtain ⟨stateAllocated, -, -, -, hin, hnext⟩ := numAssignerMetaLocked_ok hnm
  constructor
  · show ¬ m.InUse nm.next
    rw [← covers_inUse h hnm, hnext, hin]
    exact Bool.eq_false_iff.mp (covers_firstGap (alternating_union _ _))
  · intro x hx
    refine Nat.le_of_not_lt fun hlt => hx ((covers_inUse h hnm).mp ?_)
    rw [hnext] at hlt
    exact covers_of_lt_firstGap hlt

theorem least_freeNumbers
    (hfree : freeNumbers nm count = some free) (hfits : count + {x | m.InUse x}.ncard < 2 ^ 63) :
    Least count {x | ¬ m.InUse x} {x | covers free x = true} := by
  have hused : {x | m.InUse x}.ncard = Runs.count nm.inUse := by
    rw [← ncard_covers]
    congr 1
    ext x
    exact (covers_inUse h hnm).symm
  have hgaps : {x | ¬ m.InUse x} = {x | covers nm.inUse x = false} := by
    ext x
    show ¬ m.InUse x ↔ covers nm.inUse x = false
    rw [← covers_inUse h hnm, Bool.not_eq_true]
  have hmask : (count + Runs.count nm.inUse) % 2 ^ 64 = count + Runs.count nm.inUse :=
    Nat.mod_eq_of_lt (by omega)
  unfold freeNumbers at hfree
  dsimp only at hfree
  rw [hmask] at hfree
  rw [hgaps]
  exact least_gaps hfree

end

/-! ### Calls without force -/

/-- A reservation of a new name, whose numbers were not reserved. -/
theorem tidy_insert (h : s.Tidy) (hnone : s.named.get? name = none)
    (hfree : ∀ x, covers reserving x = true → covers s.allReserved x = false)
    (hget : ∀ name', s'.named.get? name' =
      if name' = name then some reserving else s.named.get? name')
    (hall : ∀ x, covers s'.allReserved x = true ↔
      covers s.allReserved x = true ∨ covers reserving x = true) : s'.Tidy := by
  -- the new numbers were not reserved, so they are in none of the other reservations
  have hothers : ∀ name' res x, s.named.get? name' = some res → covers res x = true →
      covers reserving x = false := by
    intro name' res x hres hx
    refine Bool.eq_false_iff.mpr fun hr => ?_
    have hin := (h.agrees x).mpr ⟨name', res, hres, hx⟩
    rw [hfree x hr] at hin
    cases hin
  constructor
  · refine (agrees_exchange name [] (covers reserving · = true) h.agrees
      (fun x => iff_of_false nofun (not_inName hnone))
      (fun name' hne => (hget name').trans (if_neg hne))
      (fun x => (inName_iff ((hget name).trans (if_pos rfl))).symm) (fun x => ?_)).mpr
      fun x hx => absurd hx (not_inName hnone)
    rw [hall, covers_diff]
    simp [covers]
  · rintro name₁ res₁ x hres₁ hx₁ ⟨name₂, res₂, hne, hres₂, hx₂⟩
    rw [hget] at hres₁ hres₂
    split at hres₁
    · next h₁ =>
      cases hres₁
      rw [if_neg fun h₂ => hne (h₂.trans h₁.symm)] at hres₂
      rw [hothers name₂ res₂ x hres₂ hx₂] at hx₁
      cases hx₁
    · split at hres₂
      · cases hres₂
        rw [hothers name₁ res₁ x hres₁ hx₁] at hx₂
        cases hx₂
      · exact h.disjoint name₁ res₁ x hres₁ hx₁ ⟨name₂, res₂, hne, hres₂, hx₂⟩

theorem tidy_reserve (h : s.Tidy) (hok : numReserveLocked chain s name reserving false = .ok s') :
    s'.Tidy := by
  obtain ⟨cur, hcur, rfl, hfresh⟩ := numReserveLocked_ok hok
  obtain ⟨hnone, hfree⟩ := hfresh rfl
  refine tidy_insert h hnone hfree (fun name' => get?_insert name') (fun x => ?_)
  have hno : covers cur x = false :=
    Bool.eq_false_iff.mpr fun hc => not_inName hnone ((hcur x).mp hc)
  show covers (union _ reserving) x = true ↔ _
  rw [covers_union, covers_diff, hno, Bool.or_eq_true_iff]
  simp

/-- A reservation and its numbers are taken out. -/
theorem tidy_erase (h : s.Tidy) {res : BitField} (hres : s.named.get? name = some res)
    (hget : ∀ name', s'.named.get? name' = if name' = name then none else s.named.get? name')
    (hall : ∀ x, covers s'.allReserved x = true ↔
      covers s.allReserved x = true ∧ covers res x = false) : s'.Tidy := by
  constructor
  · refine (agrees_exchange name res (fun _ => False) h.agrees (fun x => inName_iff hres)
      (fun name' hne => (hget name').trans (if_neg hne))
      (fun x => iff_of_false (not_inName ((hget name).trans (if_pos rfl))) id)
      (fun x => ?_)).mpr fun x ⟨res', hres', hx⟩ => h.disjoint name res' x hres' hx
    rw [hall, covers_diff, Bool.and_eq_true_iff, Bool.not_eq_true', or_false]
  · have hold : ∀ name' res', s'.named.get? name' = some res' → s.named.get? name' = some res' := by
      intro name' res' hres'
      rw [hget] at hres'
      split at hres'
      · cases hres'
      · exact hres'
    rintro name₁ res₁ x hres₁ hx₁ ⟨name₂, res₂, hne, hres₂, hx₂⟩
    exact h.disjoint name₁ res₁ x (hold _ _ hres₁) hx₁ ⟨name₂, res₂, hne, hold _ _ hres₂, hx₂⟩

theorem tidy_free (h : s.Tidy) (hok : numFree s name = .ok s') : s'.Tidy := by
  obtain ⟨res, hres, rfl⟩ := numFree_ok hok
  refine tidy_erase h hres (fun name' => get?_erase name') (fun x => ?_)
  show covers (diff _ res) x = true ↔ _
  rw [covers_diff, Bool.and_eq_true_iff, Bool.not_eq_true']

/-- The invariant of runs without force. -/
structure Sound (m : Miner) : Prop where
  tidy : m.store.Tidy
  returned : ∀ n ∈ m.returned, covers m.store.allAllocated n = true

theorem Sound.assignsLeast (h : Sound m) : m.AssignsLeast where
  next api n s hok := by
    obtain ⟨nm, hnm, rfl, -⟩ := nextSectorNumber_ok hok
    have hleast := isLeast_next h.tidy.agrees hnm
    have hfree : ¬ m.InUse nm.next := hleast.1
    refine ⟨fun hmem => hfree (.inr (.inl (h.returned _ hmem))), ?_, fun hin => hfree (.inl hin),
      hleast⟩
    exact Bool.eq_false_iff.mpr fun hc => hfree (.inr (.inr hc))
  reserveCount api api' name count free s hok hfits := by
    obtain ⟨nm, hnm, hfree, hres⟩ := numReserveCount_ok hok
    obtain ⟨cur, -, rfl, -⟩ := numReserveLocked_ok hres
    exact ⟨(get?_insert name).trans (if_pos rfl),
      least_freeNumbers h.tidy.agrees hnm hfree hfits⟩

/-- A call that changes the reservations only. -/
theorem Sound.kept (h : Sound m) {r : Except NumError NumStore}
    (hr : ∀ s, r = .ok s → s.Tidy ∧ s.allAllocated = m.store.allAllocated) :
    Sound (m.kept r) := by
  cases r with
  | error e => exact h
  | ok s =>
    obtain ⟨htidy, halloc⟩ := hr s rfl
    exact ⟨htidy, fun n hn => halloc ▸ h.returned n hn⟩

theorem allAllocated_reserve (hok : numReserveLocked chain s name reserving force = .ok s') :
    s'.allAllocated = s.allAllocated := by
  obtain ⟨cur, -, rfl, -⟩ := numReserveLocked_ok hok
  rfl

theorem sound_call {c : NumCall} (h : Sound m) (hforce : c.forced = false) : Sound (m.call c) := by
  cases c with
  | next api =>
    simp only [Miner.call]
    split
    · exact h
    · next n s hok =>
      obtain ⟨nm, hnm, rfl, rfl⟩ := nextSectorNumber_ok hok
      obtain ⟨_, -, -, halloc, -, -⟩ := numAssignerMetaLocked_ok hnm
      refine ⟨⟨h.tidy.agrees, h.tidy.disjoint⟩, fun n hn => ?_⟩
      show covers (set nm.allocated nm.next) n = true
      rw [covers_set, halloc, Bool.or_eq_true_iff, decide_eq_true_iff]
      rcases List.mem_cons.mp hn with rfl | hn
      · exact .inr rfl
      · exact .inl (h.returned n hn)
  | reserve name reserving force api =>
    obtain rfl : force = false := hforce
    exact h.kept fun s hok => ⟨tidy_reserve h.tidy hok, allAllocated_reserve hok⟩
  | reserveCount name count api api' =>
    refine h.kept fun s hok => ?_
    obtain ⟨⟨free, s'⟩, hcount, rfl⟩ := ok_of_map hok
    obtain ⟨nm, -, -, hres⟩ := numReserveCount_ok hcount
    exact ⟨tidy_reserve h.tidy hres, allAllocated_reserve hres⟩
  | free name =>
    refine h.kept fun s hok => ⟨tidy_free h.tidy hok, ?_⟩
    obtain ⟨res, -, rfl⟩ := numFree_ok hok
    rfl
  | land numbers => exact ⟨h.tidy, h.returned⟩

end NumAssignLemmas

open NumAssignLemmas in
/-- In every state of a run without force, whatever the chain allocates meanwhile. -/
theorem numbers_assigned {s : NumStore} {onChain : BitField} {calls : List NumCall}
    {states : List Miner} (hstore : s.Tidy)
    (h : trace numStep ⟨s, onChain, []⟩ calls = some states)
    (hforce : ∀ c ∈ calls, c.forced = false) : ∀ m ∈ states, m.AssignsLeast := by
  have hguard : Guarded numStep (fun _ c => c.forced = false) ⟨s, onChain, []⟩ calls :=
    guarded_of_forall (fun c hc _ => hforce c hc) _
  have hsound : ∀ m ∈ states, Sound m :=
    trace_forall_guarded (fun m c m' hm hc hstep => Option.some.inj hstep ▸ sound_call hm hc)
      ⟨hstore, List.forall_mem_nil _⟩ h hguard
  exact fun m hm => (hsound m hm).assignsLeast

end

/-- A datastore without records. -/
def emptyStore : NumStore := ⟨none, none, none, ∅⟩

theorem tidy_emptyStore : emptyStore.Tidy where
  agrees _ := ⟨nofun, fun ⟨_, _, hres, _⟩ => nomatch hres⟩
  disjoint _ _ _ hres := nomatch hres

theorem numbers_assigned_reserved : ∃ states,
    trace numStep ⟨emptyStore, [⟨false, 3⟩, ⟨true, 1⟩], []⟩
        [.reserve ['a'] [⟨false, 1⟩, ⟨true, 1⟩] false true, .next true, .next true,
          .reserveCount ['b'] 2 true true, .free ['a'], .next true] = some states ∧
      (states.getLast?.map Miner.returned) = some [1, 2, 0] ∧ ∀ m ∈ states, m.AssignsLeast :=
  exists_trace_and (by decide) fun _ h => numbers_assigned tidy_emptyStore h (by decide)

/-! ## Calls with force -/

section

variable [BitFields]

namespace NumAssignLemmas

variable {m : Miner}

theorem nextSpares_of_agrees (h : m.store.Agrees) : m.NextSpares := by
  intro api n s hok hin
  obtain ⟨nm, hnm, rfl, -⟩ := nextSectorNumber_ok hok
  exact (isLeast_next h hnm).1 (.inl hin)

theorem agrees_kept {r : Except NumError NumStore} (spares : NumStore → Prop)
    (h : m.store.Agrees) (hr : ∀ s, r = .ok s → (s.Agrees ↔ spares s)) :
    (m.kept r).store.Agrees ↔ ∀ s, r = .ok s → spares s := by
  cases r with
  | error e => exact iff_of_true h nofun
  | ok s =>
    refine (hr s rfl).trans ⟨?_, fun hall => hall s rfl⟩
    rintro hs s' heq
    exact Except.ok.inj heq ▸ hs

theorem agrees_call (c : NumCall) (h : m.store.Agrees) :
    (m.call c).store.Agrees ↔ m.Unshared c := by
  cases c with
  | next api =>
    refine iff_of_true ?_ trivial
    simp only [Miner.call]
    split
    · exact h
    · next n s hok =>
      obtain ⟨nm, -, rfl, rfl⟩ := nextSectorNumber_ok hok
      exact h
  | reserve name reserving force api => exact agrees_kept _ h fun s hok => agrees_reserve h hok
  | reserveCount name count api api' =>
    refine iff_of_true ((agrees_kept (fun _ => True) h fun s hok => ?_).mpr
      fun _ _ => trivial) trivial
    obtain ⟨⟨free, s'⟩, hcount, rfl⟩ := ok_of_map hok
    obtain ⟨nm, -, -, hres⟩ := numReserveCount_ok hcount
    obtain ⟨cur, -, -, hnew⟩ := numReserveLocked_ok hres
    refine iff_of_true ((agrees_reserve h hres).mpr fun x hx => ?_) trivial
    exact absurd hx (not_inName (hnew rfl).1)
  | free name => exact agrees_kept _ h fun s hok => agrees_free h hok
  | land numbers => exact iff_of_true h trivial

end NumAssignLemmas

open NumAssignLemmas in
/-- In a run with any calls the union is kept up, and `NextSectorNumber` spares the numbers of
the reservations that remain, exactly when every call meets the condition on shared numbers. -/
theorem reserved_agrees_iff {s : NumStore} {onChain : BitField} {calls : List NumCall}
    {states : List Miner} (hstore : s.Agrees)
    (h : trace numStep ⟨s, onChain, []⟩ calls = some states) :
    (∀ m ∈ states, m.store.Agrees ∧ m.NextSpares) ↔
      Guarded numStep Miner.Unshared ⟨s, onChain, []⟩ calls := by
  have hinv : ∀ (m : Miner) (c : NumCall) (m' : Miner), True → m.store.Agrees → m.Unshared c →
      numStep m c = some m' → True := fun _ _ _ _ _ _ _ => trivial
  rw [← trace_forall_iff hinv
    (fun m c m' _ hm hstep => Option.some.inj hstep ▸ agrees_call c hm) trivial hstore h]
  exact forall₂_congr fun m _ => ⟨And.left, fun hm => ⟨hm, nextSpares_of_agrees hm⟩⟩

end

theorem reserved_agrees_iff_replaced : ∃ states,
    trace numStep ⟨emptyStore, [], []⟩ [.reserve ['a'] [⟨true, 2⟩] true true,
        .reserve ['a'] [⟨true, 1⟩] true true, .free ['a']] = some states ∧
      ((∀ m ∈ states, m.store.Agrees ∧ m.NextSpares) ↔
        Guarded numStep Miner.Unshared ⟨emptyStore, [], []⟩
          [.reserve ['a'] [⟨true, 2⟩] true true, .reserve ['a'] [⟨true, 1⟩] true true,
            .free ['a']]) :=
  exists_trace_of (by decide) fun _ h => reserved_agrees_iff tidy_emptyStore.agrees h

/-- Number 0 is reserved twice and freed once; it is handed out while it is still reserved. -/
theorem freed_number_handed_out : ∃ states,
    trace numStep ⟨emptyStore, [], []⟩ [.reserve ['a'] [⟨true, 1⟩] true true,
        .reserve ['b'] [⟨true, 1⟩] true true, .free ['a']] = some states ∧
      ∃ m ∈ states, m.store.InReservation 0 ∧ covers m.store.allReserved 0 = false ∧
        ∃ s, nextSectorNumber (m.stateAllocated true) m.store = .ok (0, s) := by
  refine exists_trace_imp (p := fun states => ∃ m ∈ states,
    m.store.named.get? ['b'] = some [⟨true, 1⟩] ∧ covers m.store.allReserved 0 = false ∧
    (nextSectorNumber (m.stateAllocated true) m.store).toOption.map Prod.fst = some 0)
    (by decide) ?_
  rintro states - ⟨m, hm, hres, hall, hnext⟩
  refine ⟨m, hm, ⟨['b'], _, hres, rfl⟩, hall, ?_⟩
  cases hok : nextSectorNumber (m.stateAllocated true) m.store with
  | error e => rw [hok] at hnext; cases hnext
  | ok r =>
    rw [hok] at hnext
    obtain ⟨n, s⟩ := r
    obtain rfl : n = 0 := Option.some.inj hnext
    exact ⟨s, rfl⟩

end OpenDsn.Pipeline
