import OpenDsn.Lib.Run
import OpenDsn.Lib.Table
import OpenDsn.Paths.FileType

/-!
# Reservations of space

`storage/paths/local.go`, `Reserve`: before the files of a sector are written, space is reserved
on the paths they go to. A path has the sum of what is reserved and, for each sector, the set of
the file types. `Reserve` takes the paths in one critical section and gives back a `done` that
releases them one after another, each in a critical section of its own. A `Reserve` that fails on
a path calls the `done` it has so far.

* `reservations_exact_iff`: the sums and the sets agree with the reservations that are not
  released, exactly when no reservation is released while there is another one for the
  same file.
-/

namespace OpenDsn.Paths

open Lib List Option

/-- `storiface.ID`, the identity of a path. -/
abbrev ID := Nat

/-- `FSOverheadDen`. -/
def fsOverheadDen : Int := 10

/-- What `DiskUsage` is asked for. -/
inductive UsageOf
  | path (id : ID)
  | file (id : ID) (sid : SectorID) (i : Fin fileTypes)
  /-- `tempFetchDest`, where the file is while it is fetched. -/
  | fetched (id : ID) (sid : SectorID) (i : Fin fileTypes)

inductive Usage
  | bytes (n : Nat)
  | notExist
  | failed

/-- The answers of the file system. -/
structure LocalStorage where
  /-- `Stat`: the bytes available. -/
  stat : ID → Option Int
  diskUsage : UsageOf → Usage

/-- `path`. -/
structure StoragePath where
  maxStorage : Nat
  reserved : Int
  reservations : Table SectorID SectorFileType

structure FsStat where
  available : Int
  reserved : Int
  max : Int
  used : Int

inductive StatErr
  | stat
  | diskUsage

/-- The bytes of a reserved file that are on the disk. -/
def LocalStorage.written (ls : LocalStorage) (id : ID) (sid : SectorID) (i : Fin fileTypes) : Nat :=
  match ls.diskUsage (.file id sid i) with
  | .bytes n => n
  | .failed => 0
  | .notExist =>
      match ls.diskUsage (.fetched id sid i) with
      | .bytes n => n
      | _ => 0

section

variable (p : StoragePath)

/-- What is reserved and not yet written. -/
def StoragePath.unwritten (ls : LocalStorage) (id : ID) : Int :=
  p.reservations.pairs.foldl (fun reserved e =>
    (List.finRange fileTypes).foldl (fun reserved i =>
      if e.2.all i then reserved - ls.written id e.1 i else reserved) reserved) p.reserved

def StoragePath.stat (ls : LocalStorage) (id : ID) : Except StatErr FsStat :=
  match ls.stat id with
  | none => .error .stat
  | some available =>
      let reserved := max (p.unwritten ls id) 0
      let available := max (available - reserved) 0
      if p.maxStorage > 0 then
        match ls.diskUsage (.path id) with
        | .bytes used =>
            let avail : Int := if used > p.maxStorage then 0 else p.maxStorage - used
            .ok ⟨min avail available, reserved, p.maxStorage, used⟩
        | _ => .error .diskUsage
      else .ok ⟨available, reserved, 0, 0⟩

/-- `reservations[sid]`, which is no types for a sector that is not in the map. -/
def StoragePath.reservedTypes (sid : SectorID) : SectorFileType :=
  (p.reservations.get? sid).getD ftNone

def StoragePath.reserve (sid : SectorID) (i : Fin fileTypes) (overhead : Int) : StoragePath :=
  { p with
    reserved := p.reserved + overhead
    reservations := p.reservations.insert sid (p.reservedTypes sid ||| fileType i) }

def StoragePath.release (sid : SectorID) (i : Fin fileTypes) (overhead : Int) : StoragePath :=
  let types := p.reservedTypes sid ^^^ fileType i
  { p with
    reserved := p.reserved - overhead
    reservations :=
      if types = ftNone then p.reservations.erase sid else p.reservations.insert sid types }

end

/-- What one round of the loop reserves, and one critical section of the `done` releases. -/
structure Reservation where
  path : ID
  sector : SectorID
  fileType : Fin fileTypes
  overhead : Int

inductive ReserveErr
  | sectorSize
  /-- `errPathNotFound`. -/
  | pathNotFound
  /-- `getting local storage stat: %w`. -/
  | stat (err : StatErr)
  /-- `can't reserve %d bytes in '%s' (id:%s), only %d available`. -/
  | tempAllocateSpace (overhead : Int) (id : ID) (available : Int)

/-- The arguments of a `Reserve`. -/
structure ReserveArgs where
  sector : SectorID
  /-- The sector size of the proof type, if it has one. -/
  ssize : Option Nat
  types : SectorFileType
  /-- `PathByType` of the `storageIDs`. -/
  storageIDs : Fin fileTypes → ID
  overheadTab : Fin fileTypes → Int

/-- The loop over the path types: the error, the paths, and what is reserved. -/
def reserveLoop (ls : LocalStorage) (args : ReserveArgs) (ssize : Nat) :
    List (Fin fileTypes) → Table ID StoragePath → List Reservation →
    Option ReserveErr × Table ID StoragePath × List Reservation
  | [], paths, done => (none, paths, done)
  | i :: is, paths, done =>
      if args.types.all i = false then reserveLoop ls args ssize is paths done
      else
        let id := args.storageIDs i
        match paths.get? id with
        | none => (some .pathNotFound, paths, done)
        | some p =>
            match p.stat ls id with
            | .error err => (some (.stat err), paths, done)
            | .ok stat =>
                let overhead := (args.overheadTab i * ssize).tdiv fsOverheadDen
                if stat.available < overhead then
                  (some (.tempAllocateSpace overhead id stat.available), paths, done)
                else
                  reserveLoop ls args ssize is
                    (paths.insert id (p.reserve args.sector i overhead))
                    (done ++ [⟨id, args.sector, i, overhead⟩])

structure Local where
  paths : Table ID StoragePath
  /-- The calls of `Reserve`, with what they have reserved and not released. -/
  calls : Table Nat (List Reservation)

def Local.reserve (s : Local) (ls : LocalStorage) (args : ReserveArgs) :
    Option ReserveErr × Table ID StoragePath × List Reservation :=
  match args.ssize with
  | none => (some .sectorSize, s.paths, [])
  | some ssize => reserveLoop ls args ssize (List.finRange fileTypes) s.paths []

inductive LocalEvent
  /-- A `Reserve`, with the file system as it is then. -/
  | reserve (call : Nat) (ls : LocalStorage) (args : ReserveArgs)
  /-- The next critical section of the `done` of a call. If the call has failed it is the
  deferred one. -/
  | done (call : Nat)

/-- `none` for an event that cannot happen. -/
def localStep (s : Local) : LocalEvent → Option Local
  | .reserve call ls args =>
      if s.calls.get? call ≠ none then none
      else
        match s.reserve ls args with
        | (_, paths, done) => some ⟨paths, s.calls.insert call done⟩
  | .done call =>
      match s.calls.get? call with
      | some (r :: rest) =>
          match s.paths.get? r.path with
          | some p => some ⟨s.paths.insert r.path (p.release r.sector r.fileType r.overhead),
              s.calls.insert call rest⟩
          | none => none
      | _ => none

/-- Paths of some `maxStorage`, and nothing reserved. -/
def newLocal (maxStorage : Table ID Nat) : Local :=
  ⟨maxStorage.translate (fun id => id) fun max => ⟨max, 0, ∅⟩, ∅⟩

/-- A reservation that is not released. -/
def Local.Live (s : Local) (r : Reservation) : Prop :=
  ∃ call done, s.calls.get? call = some done ∧ r ∈ done

/-- A sum over the live reservations. -/
def Local.sum {M : Type} [AddCommMonoid M] (s : Local) (w : Reservation → M) : M :=
  (s.calls.values.map fun done => (done.map w).sum).sum

def Reservation.overheadOn (id : ID) (r : Reservation) : Int :=
  if r.path = id then r.overhead else 0

/-- `1` for a reservation of this file. -/
def Reservation.isFor (id : ID) (sid : SectorID) (i : Fin fileTypes) (r : Reservation) : Nat :=
  if r.path = id ∧ r.sector = sid ∧ r.fileType = i then 1 else 0

/-- What the paths have agrees with the live reservations. -/
structure Local.Exact (s : Local) : Prop where
  reserved : ∀ id p, s.paths.get? id = some p → p.reserved = s.sum (Reservation.overheadOn id)
  contains : ∀ id p, s.paths.get? id = some p → ∀ sid i, (p.reservedTypes sid).all i = true ↔
    ∃ r, s.Live r ∧ r.path = id ∧ r.sector = sid ∧ r.fileType = i
  empty : ∀ id p, s.paths.get? id = some p → (∀ r, s.Live r → r.path ≠ id) →
    p.reserved = 0 ∧ p.reservations.size = 0

/-- What the event releases is the one live reservation of its file. -/
def ReleasesLast (s : Local) : LocalEvent → Prop
  | .reserve .. => True
  | .done call => ∀ r ∈ (s.calls.get? call).bind List.head?,
      s.sum (Reservation.isFor r.path r.sector r.fileType) = 1

instance (s : Local) : ∀ e, Decidable (ReleasesLast s e)
  | .reserve .. => isTrue trivial
  | .done call => inferInstanceAs (Decidable (∀ r ∈ (s.calls.get? call).bind List.head?, _))

namespace ReserveLemmas

open Table Reservation StoragePath

/-! ### The types reserved on a path -/

/-- Types of files, and at least one. -/
structure Proper (types : SectorFileType) : Prop where
  bits : ∀ k, types.getLsbD k = true → k < fileTypes
  ne_none : types ≠ ftNone

theorem all_or (types : SectorFileType) (i j : Fin fileTypes) :
    (types ||| fileType i).all j = (types.all j || decide (j = i)) := by
  rw [SectorFileType.all_eq, SectorFileType.all_eq, BitVec.getLsbD_or, getLsbD_fileType]
  simp only [Fin.val_inj]

theorem all_xor (types : SectorFileType) (i j : Fin fileTypes) :
    (types ^^^ fileType i).all j = (types.all j ^^ decide (j = i)) := by
  rw [SectorFileType.all_eq, SectorFileType.all_eq, BitVec.getLsbD_xor, getLsbD_fileType]
  simp only [Fin.val_inj]

theorem bits_fileType {i : Fin fileTypes} {k : Nat} (h : (fileType i).getLsbD k = true) :
    k < fileTypes := by
  rw [getLsbD_fileType, decide_eq_true_eq] at h
  rw [h]
  exact i.isLt

theorem Proper.exists_all {types : SectorFileType} (h : Proper types) :
    ∃ i : Fin fileTypes, types.all i = true := by
  by_contra hnone
  refine h.ne_none (BitVec.eq_of_getLsbD_eq fun k _ => ?_)
  rw [ftNone, BitVec.getLsbD_zero]
  by_contra hk
  have hk : types.getLsbD k = true := (Bool.not_eq_false _).mp hk
  exact hnone ⟨⟨k, h.bits k hk⟩, by rwa [SectorFileType.all_eq]⟩

/-- The map has no sector without a type. -/
def Tidy (p : StoragePath) : Prop :=
  ∀ sid types, p.reservations.get? sid = some types → Proper types

variable {p : StoragePath} {sid : SectorID} {i : Fin fileTypes} {overhead : Int}

theorem Tidy.bits (h : Tidy p) (sid : SectorID) (k : Nat)
    (hk : (p.reservedTypes sid).getLsbD k = true) : k < fileTypes := by
  unfold reservedTypes at hk
  cases hg : p.reservations.get? sid with
  | none =>
    rw [hg, getD_none, ftNone, BitVec.getLsbD_zero] at hk
    cases hk
  | some types =>
    rw [hg] at hk
    exact (h sid types hg).bits k hk

theorem Tidy.exists_all (h : Tidy p) (hg : p.reservations.get? sid ≠ none) :
    ∃ i, (p.reservedTypes sid).all i = true := by
  obtain ⟨types, hg⟩ := ne_none_iff_exists'.mp hg
  unfold reservedTypes
  rw [hg]
  exact (h sid types hg).exists_all

theorem all_reserve (sid' : SectorID) (j : Fin fileTypes) :
    ((p.reserve sid i overhead).reservedTypes sid').all j =
      ((p.reservedTypes sid').all j || decide (sid' = sid ∧ j = i)) := by
  dsimp only [reserve, reservedTypes]
  rw [get?_insert]
  split
  · next hsid =>
    subst hsid
    rw [getD_some, all_or]
    simp only [true_and]
  · next hsid => simp only [hsid, false_and, decide_false, Bool.or_false]

theorem tidy_reserve (h : Tidy p) : Tidy (p.reserve sid i overhead) := by
  refine forall_insert ⟨fun k hk => ?_, fun hnone => ?_⟩ h
  · rw [BitVec.getLsbD_or, Bool.or_eq_true] at hk
    rcases hk with hk | hk
    · exact h.bits sid k hk
    · exact bits_fileType hk
  · have hall := all_or (p.reservedTypes sid) i i
    rw [hnone, decide_eq_true rfl, Bool.or_true, SectorFileType.all_eq, ftNone,
      BitVec.getLsbD_zero] at hall
    cases hall

theorem reservedTypes_release (sid' : SectorID) :
    (p.release sid i overhead).reservedTypes sid' =
      if sid' = sid then p.reservedTypes sid ^^^ fileType i else p.reservedTypes sid' := by
  dsimp only [release]
  unfold reservedTypes
  split
  · next hnone =>
    rw [get?_erase]
    split
    · rw [hnone, getD_none]
    · rfl
  · rw [get?_insert]
    split <;> rfl

theorem all_release (sid' : SectorID) (j : Fin fileTypes) :
    ((p.release sid i overhead).reservedTypes sid').all j =
      ((p.reservedTypes sid').all j ^^ decide (sid' = sid ∧ j = i)) := by
  rw [reservedTypes_release]
  split
  · next hsid =>
    subst hsid
    rw [all_xor]
    simp only [true_and]
  · next hsid => simp only [hsid, false_and, decide_false, Bool.xor_false]

theorem tidy_release (h : Tidy p) : Tidy (p.release sid i overhead) := by
  intro sid' types hg
  dsimp only [release] at hg
  split at hg
  · exact h sid' types (get?_erase_eq_some.mp hg).2
  · next hne =>
    refine forall_insert ⟨fun k hk => ?_, hne⟩ h sid' types hg
    by_contra hge
    have htypes : (p.reservedTypes sid).getLsbD k = false :=
      Bool.eq_false_iff.mpr fun ht => hge (h.bits sid k ht)
    have hi : (fileType i).getLsbD k = false :=
      Bool.eq_false_iff.mpr fun ht => hge (bits_fileType ht)
    rw [BitVec.getLsbD_xor, htypes, hi] at hk
    cases hk

/-! ### The paths against the reservations -/

/-- The paths agree with a sum of overheads and a number of reservations. -/
structure Balanced (paths : Table ID StoragePath) (overhead : ID → Int)
    (count : ID → SectorID → Fin fileTypes → Nat) : Prop where
  reserved : ∀ id p, paths.get? id = some p → p.reserved = overhead id
  contains : ∀ id p, paths.get? id = some p → ∀ sid i,
    (p.reservedTypes sid).all i = true ↔ 0 < count id sid i
  tidy : ∀ id p, paths.get? id = some p → Tidy p

variable {paths : Table ID StoragePath} {total : ID → Int}
  {count : ID → SectorID → Fin fileTypes → Nat} {r : Reservation} {id : ID}

theorem isFor_path : r.isFor r.path sid i = if sid = r.sector ∧ i = r.fileType then 1 else 0 := by
  unfold isFor
  simp only [true_and, eq_comm]

theorem isFor_of_ne (h : id ≠ r.path) :
    r.isFor id sid i = 0 := if_neg fun hr => h hr.1.symm

theorem overheadOn_of_ne (h : id ≠ r.path) : r.overheadOn id = 0 :=
  if_neg fun hr => h hr.symm

theorem Balanced.reserve (h : Balanced paths total count) (hp : paths.get? r.path = some p) :
    Balanced (paths.insert r.path (p.reserve r.sector r.fileType r.overhead))
      (fun id => total id + r.overheadOn id)
      (fun id sid i => count id sid i + r.isFor id sid i) := by
  constructor
  · intro id q hq
    rcases get?_insert_cases hq with ⟨rfl, rfl⟩ | ⟨hid, hq⟩
    · show p.reserved + r.overhead = _
      rw [h.reserved _ p hp, overheadOn, if_pos rfl]
    · rw [h.reserved id q hq, overheadOn_of_ne hid, add_zero]
  · intro id q hq sid i
    rcases get?_insert_cases hq with ⟨rfl, rfl⟩ | ⟨hid, hq⟩
    · rw [all_reserve, Bool.or_eq_true, h.contains _ p hp, decide_eq_true_eq, isFor_path]
      split
      · next hfile => exact ⟨fun _ => Nat.succ_pos _, fun _ => .inr hfile⟩
      · next hfile => simp only [hfile, or_false, add_zero]
    · rw [h.contains id q hq, isFor_of_ne hid, add_zero]
  · exact forall_insert (tidy_reserve (h.tidy _ p hp)) h.tidy

/-- A critical section of a `done`, when there is no other reservation of the file. -/
theorem Balanced.release
    (h : Balanced paths (fun id => r.overheadOn id + total id)
      (fun id sid i => r.isFor id sid i + count id sid i))
    (hp : paths.get? r.path = some p) (hlast : count r.path r.sector r.fileType = 0) :
    Balanced (paths.insert r.path (p.release r.sector r.fileType r.overhead)) total count := by
  constructor
  · intro id q hq
    rcases get?_insert_cases hq with ⟨rfl, rfl⟩ | ⟨hid, hq⟩
    · show p.reserved - r.overhead = _
      rw [h.reserved _ p hp, overheadOn, if_pos rfl]
      omega
    · rw [h.reserved id q hq, overheadOn_of_ne hid, zero_add]
  · intro id q hq sid i
    rcases get?_insert_cases hq with ⟨rfl, rfl⟩ | ⟨hid, hq⟩
    · have hbit := h.contains _ p hp sid i
      rw [isFor_path] at hbit
      rw [all_release]
      split at hbit
      · next hfile =>
        obtain ⟨rfl, rfl⟩ := hfile
        rw [hbit.mpr (by omega), hlast]
        simp
      · next hfile =>
        rw [zero_add] at hbit
        rw [decide_eq_false hfile, Bool.xor_false]
        exact hbit
    · rw [h.contains id q hq, isFor_of_ne hid, zero_add]
  · exact forall_insert (tidy_release (h.tidy _ p hp)) h.tidy

theorem Balanced.loop {ls : LocalStorage} {args : ReserveArgs} {ssize : Nat}
    {is : List (Fin fileTypes)} {done : List Reservation}
    {base : ID → Int} {baseCount : ID → SectorID → Fin fileTypes → Nat}
    (h : Balanced paths (fun id => base id + (done.map (Reservation.overheadOn id)).sum)
      (fun id sid i => baseCount id sid i + (done.map (Reservation.isFor id sid i)).sum)) :
    let out := reserveLoop ls args ssize is paths done
    Balanced out.2.1 (fun id => base id + (out.2.2.map (overheadOn id)).sum)
      (fun id sid i => baseCount id sid i + (out.2.2.map (isFor id sid i)).sum) := by
  induction is generalizing paths done with
  | nil => exact h
  | cons i is ih =>
    dsimp only [reserveLoop]
    split
    · exact ih h
    · split
      · exact h
      · next p hp =>
        split
        · exact h
        · split
          · exact h
          · refine ih ?_
            have hround := Balanced.reserve (r := ⟨args.storageIDs i, args.sector, i,
              (args.overheadTab i * ssize).tdiv fsOverheadDen⟩) h hp
            simp only [map_append, sum_append, map_cons, map_nil,
              sum_cons, sum_nil, add_zero, ← add_assoc]
            exact hround

/-! ### Sums over the live reservations -/

variable {M : Type} [AddCommMonoid M] {s : Local} {call : Nat} {done rest : List Reservation}
  {e : LocalEvent} {s' : Local}

theorem sum_reserve (w : Reservation → M) (h : s.calls.get? call = none) :
    Local.sum ⟨paths, s.calls.insert call done⟩ w = s.sum w + (done.map w).sum := by
  have hinsert : (s.calls.insert call done).values = done :: (s.calls.erase call).values := rfl
  unfold Local.sum
  rw [hinsert, erase_of_get?_none h, map_cons, sum_cons, add_comm]

theorem sum_done (w : Reservation → M) (h : s.calls.get? call = some (r :: rest))
    (paths : Table ID StoragePath) :
    s.sum w = w r + Local.sum ⟨paths, s.calls.insert call rest⟩ w := by
  have hinsert : (s.calls.insert call rest).values = rest :: (s.calls.erase call).values := rfl
  unfold Local.sum
  rw [sum_erase _ h, hinsert, map_cons, sum_cons, map_cons, sum_cons,
    add_assoc]

theorem sum_eq_zero {w : Reservation → M} (h : ∀ r, s.Live r → w r = 0) : s.sum w = 0 := by
  refine List.sum_eq_zero fun x hx => ?_
  obtain ⟨done, hdone, rfl⟩ := List.mem_map.mp hx
  obtain ⟨call, hcall⟩ := mem_values.mp hdone
  refine List.sum_eq_zero fun y hy => ?_
  obtain ⟨r, hr, rfl⟩ := List.mem_map.mp hy
  exact h r ⟨call, done, hcall, hr⟩

theorem sum_pos_iff {w : Reservation → Nat} : 0 < s.sum w ↔ ∃ r, s.Live r ∧ 0 < w r := by
  constructor
  · intro h
    by_contra hnone
    have hzero : s.sum w = 0 := sum_eq_zero fun r hr =>
      Nat.eq_zero_of_not_pos fun hw => hnone ⟨r, hr, hw⟩
    omega
  · rintro ⟨r, ⟨call, done, hcall, hmem⟩, hw⟩
    by_contra hpos
    have hzero : s.sum w = 0 := Nat.eq_zero_of_not_pos hpos
    rw [Local.sum, ← total_eq_sum, total_eq_zero_iff] at hzero
    have hr := List.sum_eq_zero_iff_forall_eq_nat.mp (hzero call done hcall) (w r)
      (List.mem_map_of_mem hmem)
    omega

theorem isFor_pos_iff : 0 < r.isFor id sid i ↔ r.path = id ∧ r.sector = sid ∧ r.fileType = i := by
  unfold isFor
  split
  · next h => exact ⟨fun _ => h, fun _ => one_pos⟩
  · next h => exact ⟨fun hz => absurd hz (lt_irrefl 0), fun hr => absurd hr h⟩

theorem sum_isFor_pos_iff : 0 < s.sum (Reservation.isFor id sid i) ↔
    ∃ r, s.Live r ∧ r.path = id ∧ r.sector = sid ∧ r.fileType = i := by
  simp only [sum_pos_iff, isFor_pos_iff]

/-! ### Steps -/

/-- The paths agree with the live reservations. -/
def Kept (s : Local) : Prop :=
  Balanced s.paths (fun id => s.sum (Reservation.overheadOn id))
    (fun id sid i => s.sum (Reservation.isFor id sid i))

theorem Kept.exact (h : Kept s) : s.Exact := by
  constructor
  · exact h.reserved
  · intro id p hp sid i
    rw [h.contains id p hp, sum_isFor_pos_iff]
  · intro id p hp hnone
    constructor
    · rw [h.reserved id p hp]
      exact sum_eq_zero fun r hr => if_neg (hnone r hr)
    · rw [size_eq_zero_iff]
      intro sid
      by_contra hg
      obtain ⟨i, hi⟩ := (h.tidy id p hp).exists_all hg
      rw [h.contains id p hp, sum_isFor_pos_iff] at hi
      obtain ⟨r, hr, hid, _⟩ := hi
      exact hnone r hr hid

theorem kept_newLocal (maxStorage : Table ID Nat) : Kept (newLocal maxStorage) := by
  have hpath : ∀ id p, (newLocal maxStorage).paths.get? id = some p →
      p.reserved = 0 ∧ p.reservations = ∅ := by
    intro id p hp
    dsimp only [newLocal] at hp
    have hget := get?_translate (f := fun id : ID => id)
      (fun max : Nat => (⟨max, 0, ∅⟩ : StoragePath)) maxStorage (fun _ _ h => h) id
    rw [hget] at hp
    obtain ⟨max, _, rfl⟩ := map_eq_some_iff.mp hp
    exact ⟨rfl, rfl⟩
  constructor
  · intro id p hp
    exact (hpath id p hp).1
  · intro id p hp sid i
    have htypes : p.reservedTypes sid = ftNone := by
      unfold reservedTypes
      rw [(hpath id p hp).2]
      rfl
    rw [htypes, SectorFileType.all_eq, ftNone, BitVec.getLsbD_zero]
    exact iff_of_false Bool.false_ne_true (lt_irrefl 0)
  · intro id p hp sid types hg
    rw [(hpath id p hp).2] at hg
    cases hg

theorem localStep_cases (h : localStep s e = some s') :
    (∃ call ls args, e = .reserve call ls args ∧ s.calls.get? call = none ∧
      s' = ⟨(s.reserve ls args).2.1, s.calls.insert call (s.reserve ls args).2.2⟩) ∨
    (∃ call r rest p, e = .done call ∧ s.calls.get? call = some (r :: rest) ∧
      s.paths.get? r.path = some p ∧
      s' = ⟨s.paths.insert r.path (p.release r.sector r.fileType r.overhead),
        s.calls.insert call rest⟩) := by
  cases e with
  | reserve call ls args =>
    simp only [localStep] at h
    split at h
    · cases h
    next hcall =>
    cases h
    exact .inl ⟨call, ls, args, rfl, not_not.mp hcall, rfl⟩
  | done call =>
    simp only [localStep] at h
    split at h
    · next r rest hcall =>
      split at h
      · next p hp =>
        cases h
        exact .inr ⟨call, r, rest, p, rfl, hcall, hp, rfl⟩
      · cases h
    · cases h

theorem Kept.reserve (h : Kept s) (ls : LocalStorage) (args : ReserveArgs)
    (hcall : s.calls.get? call = none) :
    Kept ⟨(s.reserve ls args).2.1, s.calls.insert call (s.reserve ls args).2.2⟩ := by
  unfold Kept
  simp only [sum_reserve _ hcall]
  unfold Local.reserve
  have hstart : Balanced s.paths
      (fun id => s.sum (overheadOn id) + (List.map (overheadOn id) []).sum)
      (fun id sid i => s.sum (isFor id sid i) +
        (List.map (isFor id sid i) []).sum) := by
    simp only [map_nil, sum_nil, add_zero]
    exact h
  split
  · exact hstart
  · exact Balanced.loop hstart

section

variable (hcall : s.calls.get? call = some (r :: rest))
include hcall

theorem releasesLast_done :
    ReleasesLast s (.done call) ↔ s.sum (Reservation.isFor r.path r.sector r.fileType) = 1 := by
  dsimp only [ReleasesLast]
  rw [hcall]
  exact ⟨fun h => h r rfl, fun h r' hr' => some.inj hr' ▸ h⟩

/-- The number of the reservations of the file that is released. -/
theorem sum_isFor_done (paths : Table ID StoragePath) :
    s.sum (Reservation.isFor r.path r.sector r.fileType) =
      1 + Local.sum ⟨paths, s.calls.insert call rest⟩
        (Reservation.isFor r.path r.sector r.fileType) := by
  have hr : r.isFor r.path r.sector r.fileType = 1 := if_pos ⟨rfl, rfl, rfl⟩
  rw [sum_done _ hcall paths, hr]

theorem Kept.released (h : Kept s)
    (hp : s.paths.get? r.path = some p) (hlast : ReleasesLast s (.done call)) :
    Kept ⟨s.paths.insert r.path (p.release r.sector r.fileType r.overhead),
      s.calls.insert call rest⟩ := by
  unfold Kept at h
  simp only [sum_done _ hcall s.paths] at h
  refine Balanced.release h hp ?_
  rw [releasesLast_done hcall, sum_isFor_done hcall] at hlast
  exact Nat.add_left_cancel hlast

/-- A type that is released twice is in the set again: the first release has to be the last. -/
theorem releasesLast_of_exact (h : Kept s) (hp : s.paths.get? r.path = some p)
    (hexact : Local.Exact ⟨s.paths.insert r.path (p.release r.sector r.fileType r.overhead),
      s.calls.insert call rest⟩) : ReleasesLast s (.done call) := by
  have hsum := sum_isFor_done hcall s.paths
  have hset : (p.reservedTypes r.sector).all r.fileType = true := by
    rw [h.contains _ p hp, hsum]
    exact lt_of_lt_of_le one_pos (Nat.le_add_right _ _)
  have hnew := hexact.contains r.path (p.release r.sector r.fileType r.overhead)
    get?_insert_self r.sector r.fileType
  rw [all_release, hset, decide_eq_true ⟨rfl, rfl⟩, ← sum_isFor_pos_iff] at hnew
  have hzero := Nat.eq_zero_of_not_pos fun hpos => Bool.false_ne_true (hnew.mpr hpos)
  rw [releasesLast_done hcall, hsum]
  exact congrArg (1 + ·) hzero

end

theorem kept_step (h : Kept s) (hlast : ReleasesLast s e)
    (hstep : localStep s e = some s') : Kept s' := by
  rcases localStep_cases hstep with
    ⟨call, ls, args, rfl, hcall, rfl⟩ | ⟨call, r, rest, p, rfl, hcall, hp, rfl⟩
  · exact h.reserve ls args hcall
  · exact h.released hcall hp hlast

theorem exact_step_iff (h : Kept s)
    (hstep : localStep s e = some s') : s'.Exact ↔ ReleasesLast s e := by
  refine ⟨fun hexact => ?_, fun hlast => (kept_step h hlast hstep).exact⟩
  rcases localStep_cases hstep with
    ⟨call, ls, args, rfl, hcall, rfl⟩ | ⟨call, r, rest, p, rfl, hcall, hp, rfl⟩
  · exact trivial
  · exact releasesLast_of_exact hcall h hp hexact

end ReserveLemmas

open ReserveLemmas in
/-- For every interleaving, the paths agree with the live reservations at every moment exactly
when each reservation is released while it is the only one of its file. -/
theorem reservations_exact_iff (maxStorage : Table ID Nat) {events : List LocalEvent}
    {states : List Local} (hrun : trace localStep (newLocal maxStorage) events = some states) :
    (∀ s ∈ states, s.Exact) ↔ Guarded localStep ReleasesLast (newLocal maxStorage) events :=
  trace_forall_iff (fun _ _ _ hkept _ hlast hstep => kept_step hkept hlast hstep)
    (fun _ _ _ hkept _ hstep => exact_step_iff hkept hstep)
    (kept_newLocal maxStorage) (kept_newLocal maxStorage).exact hrun

/-- One path, with room. -/
def roomyPath : Table ID Nat := Table.insert ∅ 0 0

def roomyStorage : LocalStorage := ⟨fun _ => some 1000, fun _ => .notExist⟩

/-- Space for the unsealed and the sealed file of a sector, on the one path. -/
def reserveFiles (types : SectorFileType) : ReserveArgs where
  sector := ⟨1000, 1⟩
  ssize := some 100
  types := types
  storageIDs := fun _ => 0
  overheadTab := fun _ => 10

/-- Two calls for different files of a sector, released in turns. -/
theorem reservations_exact_iff_turns :
    ∃ states, trace localStep (newLocal roomyPath)
        [.reserve 0 roomyStorage (reserveFiles (ftUnsealed ||| ftSealed)),
          .reserve 1 roomyStorage (reserveFiles ftCache), .done 0, .done 1, .done 0] = some states ∧
      ∀ s ∈ states, s.Exact :=
  exists_trace_of (by decide +kernel) fun _ hrun =>
    (reservations_exact_iff roomyPath hrun).mpr (by decide +kernel)

/-- Two calls for the unsealed file. The first `done` takes the type out of the set, and the
second puts it back, for ever. -/
theorem released_type_stays :
    ∃ states, trace localStep (newLocal roomyPath)
        [.reserve 0 roomyStorage (reserveFiles ftUnsealed),
          .reserve 1 roomyStorage (reserveFiles ftUnsealed), .done 0, .done 1] = some states ∧
      ∃ s ∈ states, (∀ done ∈ s.calls.values, done.length = 0) ∧
        ∃ p ∈ s.paths.get? 0, p.reserved = 0 ∧ p.reservedTypes ⟨1000, 1⟩ = ftUnsealed := by
  refine exists_trace ?_
  decide +kernel

end OpenDsn.Paths
