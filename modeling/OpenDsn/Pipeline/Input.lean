import OpenDsn.Lib.Align
import OpenDsn.Lib.Run
import OpenDsn.Lib.Sort
import OpenDsn.Lib.Table
import OpenDsn.Sealer.PartialFile

/-!
# Assigning pieces to open sectors

`storage/pipeline/input.go`: `updateInput` matches the pending pieces with the open sectors. The
padding before a piece is estimated from the space that was free before the round, and what was
assigned is added to the used space of the sector. `handleAddPiece` takes the pieces that were
assigned to its sector and places them, each behind the padding of `GetRequiredPadding`
(`storage/sealer/ffiwrapper/sealer_cgo.go`). `handleWaitDeals` sets the used space to that of the
pieces which are in the sector.

* `inv_assignMatch`: the estimate pays for the padding and the piece while it is that of the space
  which is still free;
* `assigned_fit_of_even`: if every round gives a sector at most one piece, or pieces of one size
  that divides its used space, the sector has room for what it was assigned;
* `assigned_piece_rejected`: a piece that was assigned is rejected for lack of space, and the used
  space goes over the capacity.
-/

set_option linter.unusedSectionVars false

namespace OpenDsn.Pipeline

open Lib Sealer List Option

/-- A sector size, and the sizes of the pieces of the deals by their proposals. -/
structure InputConfig where
  exp : Nat
  exp_ge : 7 ≤ exp
  exp_lt : exp < 64
  sizeOf : Nat → Nat

section

variable [PieceSizes]

namespace InputConfig

variable (cfg : InputConfig)

/-- `SectorSize`. -/
def ssize : Nat := 2 ^ cfg.exp

/-- `abi.PaddedPieceSize(ssize).Unpadded()`. -/
def capacity : Nat := unpadded cfg.ssize

/-- `getDealPerSectorLimit`. -/
def maxDeals : Nat := if cfg.ssize < 68719476736 then 256 else 512

/-- The checks of `SectorAddPieceToAny`: the size is its own `PaddedSize`, which is 127 times a
power of two, and fits into a sector. -/
def Admits (c : Nat) : Prop :=
  (∃ m < 64, cfg.sizeOf c = 127 * 2 ^ m) ∧ cfg.sizeOf c ≤ cfg.capacity

instance (cfg : InputConfig) (c : Nat) : Decidable (cfg.Admits c) :=
  inferInstanceAs (Decidable ((∃ m < 64, _) ∧ _))

end InputConfig

/-- The difference of two `uint64`. -/
def sub64 (a b : Nat) : Nat := (a + (2 ^ 64 - b % 2 ^ 64)) % 2 ^ 64

/-- `openSector`. -/
structure OpenSector where
  used : Nat
  deriving DecidableEq

/-- `SectorPiece`: the padded size, and the deal unless it is padding. -/
structure SectorPiece where
  size : Nat
  deal : Option Nat

structure Input where
  /-- Whether each pending piece is assigned. -/
  pendingPieces : Table Nat Bool
  openSectors : Table Nat OpenSector
  assignedPieces : Table Nat (List Nat)
  /-- The pieces of the sectors. -/
  sectors : Table Nat (List SectorPiece)
  /-- The pieces that `handleAddPiece` has taken and is adding. -/
  adding : Table Nat (List Nat)

/-- `match`. -/
structure Match where
  sector : Nat
  deal : Nat
  size : Nat
  padding : Nat

/-- What a round depends on: the orders in which the maps are visited, the sort, and whether a deal
fits in the lifetime of a sector, which may not be known. -/
structure Round where
  pieces : Arrangement
  sectors : Nat → Arrangement
  sorter : Sorter
  fits : Nat → Nat → Option Bool

namespace Input

variable (s : Input) (sid : Nat)

def pieces : List SectorPiece := (s.sectors.get? sid).getD []

def assigned : List Nat := (s.assignedPieces.get? sid).getD []

/-- The pieces on their way into a sector, in their order. -/
def awaiting : List Nat := (s.adding.get? sid).getD [] ++ s.assigned sid

end Input

/-- The sum of `piece.Size.Unpadded()`. -/
def usedSpace (pieces : List SectorPiece) : Nat := (pieces.map fun p => unpadded p.size).sum

/-- `len(sector.dealIDs())`. -/
def dealCount (pieces : List SectorPiece) : Nat := (pieces.filter fun p => p.deal.isSome).length

/-! ## `updateInput` -/

section Update

variable (cfg : InputConfig)

/-- The match of a piece with an open sector. -/
def matchOf (round : Round) (deal : Nat) (entry : Nat × OpenSector) : Option Match :=
  let avail := sub64 cfg.capacity entry.2.used
  match round.fits deal entry.1 with
  | some true =>
      if cfg.sizeOf deal ≤ avail then
        some ⟨entry.1, deal, cfg.sizeOf deal, avail % cfg.sizeOf deal⟩
      else none
  | _ => none

def roundMatches (s : Input) (round : Round) : List Match :=
  (round.pieces.arrange s.pendingPieces.pairs).flatMap fun piece =>
    if piece.2 then []
    else ((round.sectors piece.1).arrange s.openSectors.pairs).filterMap
      (matchOf cfg round piece.1)

def Match.less (a b : Match) : Bool :=
  if a.padding ≠ b.padding then a.padding < b.padding
  else if a.size ≠ b.size then a.size < b.size
  else a.sector < b.sector

/-- One round of the second loop. -/
def assignMatch (s : Input) (mt : Match) : Input :=
  match s.pendingPieces.get? mt.deal, s.openSectors.get? mt.sector with
  | some false, some sector =>
      let avail := sub64 cfg.capacity sector.used
      if mt.size > avail then s
      else
        { s with
          assignedPieces := s.assignedPieces.insert mt.sector (s.assigned mt.sector ++ [mt.deal])
          openSectors := s.openSectors.insert mt.sector
            ⟨(sector.used + (mt.padding + mt.size)) % 2 ^ 64⟩
          pendingPieces := s.pendingPieces.insert mt.deal true }
  | _, _ => s

def updateInput (s : Input) (round : Round) : Input :=
  (round.sorter.sort Match.less (roundMatches cfg s round)).foldl (assignMatch cfg) s

end Update

/-! ## `handleAddPiece` -/

/-- The set bits of a `uint64`, from the lowest on. -/
def setBits (n : Nat) : List Nat := (List.range 64).filter n.testBit

/-- The loop of `GetRequiredPadding` and `fillersFromRem`: `bits.TrailingZeros64` is the first set
bit. -/
def fillersLoop : Nat → Nat → List Nat
  | 0, _ => []
  | k + 1, toFill =>
      let psize := 2 ^ (setBits toFill).headD 64
      psize :: fillersLoop k (toFill ^^^ psize)

/-- `bits.OnesCount64` is the number of set bits. -/
def getRequiredPadding (oldLength newPieceLength : Nat) : List Nat × Nat :=
  let toFill := sub64 0 oldLength % newPieceLength
  let padPieces := fillersLoop (setBits toFill).length toFill
  (padPieces, padPieces.sum)

/-- What `accepted` is called with. -/
inductive Verdict
  | accepted
  | tooManyDeals
  | notEnoughSpace
deriving DecidableEq

/-- The variables of the loop. -/
structure Placing where
  offset : Nat
  newPieces : List SectorPiece
  verdicts : List Verdict

section AddPiece

variable (cfg : InputConfig)

/-- One round of the loop over the pieces that were taken; `deals` are the deals in the sector with
the pieces up to this one. -/
def placePiece (deals : Nat) (c : Nat) (p : Placing) : Placing :=
  if deals > cfg.maxDeals then { p with verdicts := p.verdicts ++ [.tooManyDeals] }
  else
    let (pads, padLength) := getRequiredPadding (padded p.offset) (padded (cfg.sizeOf c))
    if padded p.offset + padLength + padded (cfg.sizeOf c) > cfg.ssize then
      { p with verdicts := p.verdicts ++ [.notEnoughSpace] }
    else
      { offset := p.offset + unpadded padLength + cfg.sizeOf c
        newPieces := p.newPieces ++ pads.map (⟨·, none⟩) ++ [⟨padded (cfg.sizeOf c), some c⟩]
        verdicts := p.verdicts ++ [.accepted] }

/-- The loop, with the number of deals before each piece. -/
def placeFrom (deals : Nat) : List Nat → Placing → Placing
  | [], p => p
  | c :: cs, p => placeFrom (deals + 1) cs (placePiece cfg (deals + 1) c p)

/-- The pieces that were taken, placed after those of the sector. -/
def placeAll (pieces : List SectorPiece) (taken : List Nat) : Placing :=
  placeFrom cfg (dealCount pieces) taken ⟨usedSpace pieces, [], []⟩

end AddPiece

/-! ## The calls -/

inductive InputEvent
  /-- `SectorAddPieceToAny` of a deal, up to its round. -/
  | addPending (deal : Nat)
  /-- `updateInput`. -/
  | update (round : Round)
  /-- `handleWaitDeals` up to its round; `started` if sealing starts or that fails. -/
  | waitDeals (sid : Nat) (started : Bool)
  /-- `handleAddPiece` takes the pieces of its sector. -/
  | takePieces (sid : Nat)
  /-- The pieces were added, or the sealer failed at one of them. -/
  | pieceAdded (sid : Nat) (ok : Bool)
  /-- `handlePacking` up to the unlock. -/
  | packing (sid : Nat)

namespace Input

variable (cfg : InputConfig) (s : Input) (sid : Nat)

def waitDeals (started : Bool) : Input :=
  if (s.assigned sid).length > 0 then s
  else if started then { s with openSectors := s.openSectors.erase sid }
  else
    { s with
      openSectors := s.openSectors.insert sid ⟨usedSpace (s.pieces sid) % 2 ^ 64⟩ }

def takePieces : Input :=
  match s.assignedPieces.get? sid with
  | none => s
  | some taken =>
      { s with
        assignedPieces := s.assignedPieces.erase sid
        adding := s.adding.insert sid taken }

def pieceAdded (ok : Bool) (taken : List Nat) : Input :=
  let s' := { s with adding := s.adding.erase sid }
  if ok then
    { s' with
      sectors := s.sectors.insert sid
        (s.pieces sid ++ (placeAll cfg (s.pieces sid) taken).newPieces) }
  else s'

def packing : Input :=
  { s with
    pendingPieces := s.pendingPieces.eraseAll (s.assigned sid)
    openSectors := s.openSectors.erase sid
    assignedPieces := s.assignedPieces.erase sid }

/-- One call. The handlers of one sector run one after the other. -/
def step : InputEvent → Option Input
  | .addPending deal =>
      if cfg.Admits deal then
        some { s with pendingPieces := s.pendingPieces.insert deal false }
      else none
  | .update round => some (updateInput cfg s round)
  | .waitDeals sid started =>
      if s.adding.get? sid = none then some (s.waitDeals sid started) else none
  | .takePieces sid => if s.adding.get? sid = none then some (s.takePieces sid) else none
  | .pieceAdded sid ok => (s.adding.get? sid).map (s.pieceAdded cfg sid ok)
  | .packing sid => if s.adding.get? sid = none then some (s.packing sid) else none

end Input

/-- The used space of an open sector. -/
def Input.used (s : Input) (sid : Nat) : Nat :=
  ((s.openSectors.get? sid).map OpenSector.used).getD 0

/-- The pieces that were assigned to a sector between two states. -/
def Input.given (s s' : Input) (sid : Nat) : List Nat :=
  (s'.assigned sid).drop (s.assigned sid).length

/-- At most one piece, or pieces of one size that divides the used space. -/
def EvenPieces (cfg : InputConfig) (used : Nat) (given : List Nat) : Prop :=
  given.Pairwise fun c d => cfg.sizeOf c = cfg.sizeOf d ∧ cfg.sizeOf c ∣ used

/-- What a round gives to the sector. -/
def Even (cfg : InputConfig) (sid : Nat) (s : Input) : InputEvent → Prop
  | .update round => EvenPieces cfg (s.used sid) (s.given (updateInput cfg s round) sid)
  | _ => True

instance (cfg : InputConfig) (sid : Nat) (s : Input) :
    (e : InputEvent) → Decidable (Even cfg sid s e)
  | .update _ => inferInstanceAs (Decidable (Pairwise _ _))
  | .addPending _ | .waitDeals .. | .takePieces _ | .pieceAdded .. | .packing _ => isTrue trivial

/-- No piece is on its way into the sector, and its used space is that of its pieces. -/
structure Input.Settled (s : Input) (sid : Nat) : Prop where
  awaiting : s.awaiting sid = []
  used : ∀ sector, s.openSectors.get? sid = some sector → sector.used = usedSpace (s.pieces sid)

/-- Visits the maps as they are listed, sorts stably, and every deal fits in every lifetime. -/
def listedRound : Round := ⟨.listed, fun _ => .listed, stableSorter, fun _ _ => some true⟩

/-- No piece waits, and no sector is open. -/
def newInput (sectors : Table Nat (List SectorPiece)) : Input := ⟨∅, ∅, ∅, sectors, ∅⟩

/-- The pieces of every sector have padded sizes and fit. -/
def SectorsFit (cfg : InputConfig) (sectors : Table Nat (List SectorPiece)) : Prop :=
  ∀ sid pieces, sectors.get? sid = some pieces →
    (∀ p ∈ pieces, 128 ∣ p.size) ∧ usedSpace pieces ≤ cfg.capacity

namespace InputLemmas

open Input Table

/-! ## Sizes -/

section Sizes

variable {cfg : InputConfig} {c : Nat}

section

variable (cfg)

theorem ssize_eq : cfg.ssize = 128 * 2 ^ (cfg.exp - 7) := by
  unfold InputConfig.ssize
  rw [show (128 : Nat) = 2 ^ 7 from rfl, ← Nat.pow_add, Nat.add_sub_cancel' cfg.exp_ge]

theorem capacity_eq : cfg.capacity = 127 * 2 ^ (cfg.exp - 7) := by
  unfold InputConfig.capacity
  rw [ssize_eq, unpadded_mul]

theorem ssize_lt : cfg.ssize < 2 ^ 64 :=
  Nat.pow_lt_pow_right one_lt_two cfg.exp_lt

theorem capacity_lt : cfg.capacity < 2 ^ 64 := by
  have hlt := ssize_lt cfg
  rw [ssize_eq] at hlt
  rw [capacity_eq]
  omega

end

/-- A piece has 127 times a power of two that divides the units of the sector. -/
theorem exists_size (h : cfg.Admits c) : ∃ m, m ≤ cfg.exp - 7 ∧ cfg.sizeOf c = 127 * 2 ^ m := by
  obtain ⟨⟨m, -, hm⟩, hle⟩ := h
  refine ⟨m, ?_, hm⟩
  rw [hm, capacity_eq] at hle
  exact (Nat.pow_le_pow_iff_right one_lt_two).mp (Nat.le_of_mul_le_mul_left hle (by decide))

theorem size_pos (h : cfg.Admits c) : 0 < cfg.sizeOf c := by
  obtain ⟨m, -, hm⟩ := exists_size h
  rw [hm]
  exact Nat.mul_pos (by decide) (Nat.two_pow_pos m)

theorem size_dvd (h : cfg.Admits c) : cfg.sizeOf c ∣ cfg.capacity := by
  obtain ⟨m, hle, hm⟩ := exists_size h
  rw [hm, capacity_eq]
  exact Nat.mul_dvd_mul_left 127 (Nat.pow_dvd_pow 2 hle)

theorem sub64_of_le {a b : Nat} (h : b ≤ a) (ha : a < 2 ^ 64) : sub64 a b = a - b := by
  unfold sub64
  rw [Nat.mod_eq_of_lt (h.trans_lt ha), ← Nat.add_sub_assoc (by omega), add_comm,
    Nat.add_sub_assoc h, Nat.add_mod_left,
    Nat.mod_eq_of_lt (lt_of_le_of_lt (Nat.sub_le a b) ha)]

end Sizes

/-! ## The padding -/

section Padding

theorem sum_bits (n k : Nat) : (((List.range k).filter n.testBit).map (2 ^ ·)).sum = n % 2 ^ k := by
  induction k with
  | zero => simp [Nat.mod_one]
  | succ k ih =>
    rw [range_succ, filter_append, map_append, sum_append, ih, Nat.mod_pow_succ]
    congr 1
    rcases Nat.mod_two_eq_zero_or_one (n / 2 ^ k) with hbit | hbit
    · simp [Nat.testBit_eq_decide_div_mod_eq, hbit]
    · simp [Nat.testBit_eq_decide_div_mod_eq, hbit]

/-- Without its lowest set bit a number has the other ones. -/
theorem setBits_xor {n i : Nat} {rest : List Nat} (h : setBits n = i :: rest) :
    setBits (n ^^^ 2 ^ i) = rest := by
  have hi : n.testBit i = true := (mem_filter.mp (h ▸ mem_cons_self : i ∈ setBits n)).2
  have hnd : (setBits n).Nodup := nodup_range.filter _
  have hbits : ∀ j, (n ^^^ 2 ^ i).testBit j = (j != i && n.testBit j) := by
    intro j
    rw [Nat.testBit_xor, Nat.testBit_two_pow]
    by_cases hj : i = j
    · simp [← hj, hi]
    · simp [hj, Ne.symm hj]
  calc setBits (n ^^^ 2 ^ i) = (setBits n).erase i := by
        rw [hnd.erase_eq_filter, setBits, setBits, List.filter_filter]
        exact filter_congr fun j _ => hbits j
    _ = rest := by rw [h, erase_cons_head]

theorem fillersLoop_eq (n : Nat) :
    fillersLoop (setBits n).length n = (setBits n).map (2 ^ ·) := by
  generalize hbits : setBits n = bits
  induction bits generalizing n with
  | nil => rfl
  | cons i rest ih =>
    rw [length_cons, fillersLoop, hbits, map_cons]
    exact congrArg _ (ih _ (setBits_xor hbits))

theorem unpadded_add {a b : Nat} (ha : 128 ∣ a) : unpadded (a + b) = unpadded a + unpadded b := by
  rw [unpadded_eq, unpadded_eq, unpadded_eq]
  omega

theorem usedSpace_append (ps qs : List SectorPiece) :
    usedSpace (ps ++ qs) = usedSpace ps + usedSpace qs := by
  unfold usedSpace
  rw [map_append, sum_append]

theorem usedSpace_pads {pads : List Nat} (h : ∀ p ∈ pads, 128 ∣ p) :
    usedSpace (pads.map (⟨·, none⟩)) = unpadded pads.sum := by
  induction pads with
  | nil => exact (unpadded_eq 0).symm
  | cons p pads ih =>
    obtain ⟨hp, h⟩ := forall_mem_cons.mp h
    rw [sum_cons, unpadded_add hp, ← ih h]
    exact sum_cons

/-- What is missing to the next multiple of a piece. -/
theorem toFill_eq {o s : Nat} (ho : o < 2 ^ 64) (hs : s ∣ 2 ^ 64) :
    o + sub64 0 o % s = alignUp o s := by
  rw [alignUp_eq_add (Nat.pos_of_dvd_of_pos hs (by decide)) (le_of_lt ho) hs]
  unfold sub64
  rw [Nat.mod_eq_of_lt ho, zero_add, Nat.mod_mod_of_dvd _ hs]

theorem getRequiredPadding_pads (o s : Nat) :
    (getRequiredPadding o s).1 = (setBits (sub64 0 o % s)).map (2 ^ ·) :=
  fillersLoop_eq _

theorem getRequiredPadding_sum {o s : Nat} (ho : o < 2 ^ 64) (hs : s ∣ 2 ^ 64) :
    o + (getRequiredPadding o s).2 = alignUp o s := by
  have hlt : sub64 0 o % s < 2 ^ 64 :=
    lt_of_le_of_lt (Nat.mod_le _ _) (Nat.mod_lt _ (by decide))
  have hsum : (getRequiredPadding o s).2 = (getRequiredPadding o s).1.sum := rfl
  rw [hsum, getRequiredPadding_pads, setBits, sum_bits, Nat.mod_eq_of_lt hlt, toFill_eq ho hs]

/-- The pieces of padding are padded sizes themselves. -/
theorem exists_of_mem_pads {o s p : Nat} (ho : o < 2 ^ 64) (hs : s ∣ 2 ^ 64) (ho7 : 128 ∣ o)
    (hs7 : 128 ∣ s) (h : p ∈ (getRequiredPadding o s).1) : ∃ i, 7 ≤ i ∧ p = 2 ^ i := by
  obtain ⟨k, hk⟩ : 128 ∣ sub64 0 o % s := (Nat.dvd_add_right ho7).mp
    (by rw [toFill_eq ho hs]; exact hs7.trans (dvd_alignUp o s))
  rw [getRequiredPadding_pads] at h
  obtain ⟨i, hi, rfl⟩ := mem_map.mp h
  have hbit : (128 * k).testBit i = true := hk ▸ (mem_filter.mp hi).2
  rw [show (128 : Nat) = 2 ^ 7 from rfl, Nat.testBit_two_pow_mul, Bool.and_eq_true] at hbit
  exact ⟨i, of_decide_eq_true hbit.1, rfl⟩

end Padding

/-! ## Placing the pieces -/

section Placing

variable {cfg : InputConfig} {c o : Nat} {p : Placing} {cs : List Nat}

/-- The padding before a piece brings it to the next multiple of its size. -/
structure Padded (cfg : InputConfig) (o c : Nat) (pads : List Nat × Nat) : Prop where
  space : padded o + pads.2 + padded (cfg.sizeOf c) > cfg.ssize ↔
    alignUp o (cfg.sizeOf c) + cfg.sizeOf c > cfg.capacity
  offset : o + unpadded pads.2 = alignUp o (cfg.sizeOf c)
  sizes : ∀ q ∈ pads.1, 128 ∣ q
  used : usedSpace (pads.1.map (⟨·, none⟩)) = unpadded pads.2

theorem padded_getRequiredPadding (ho : 127 ∣ o) (hle : o ≤ cfg.capacity) (hc : cfg.Admits c) :
    Padded cfg o c (getRequiredPadding (padded o) (padded (cfg.sizeOf c))) := by
  obtain ⟨a, rfl⟩ := ho
  obtain ⟨m, hm, hsize⟩ := exists_size hc
  rw [capacity_eq] at hle
  have ha64 : 128 * a < 2 ^ 64 := by
    have hlt := ssize_lt cfg
    rw [ssize_eq] at hlt
    omega
  have hdvd : 128 * 2 ^ m ∣ 2 ^ 64 := by
    have hlt := cfg.exp_lt
    rw [show (128 : Nat) = 2 ^ 7 from rfl, ← Nat.pow_add]
    exact Nat.pow_dvd_pow 2 (by omega)
  have hsum := getRequiredPadding_sum ha64 hdvd
  rw [alignUp_mul (by decide) (Nat.two_pow_pos m)] at hsum
  have hsizes : ∀ q ∈ (getRequiredPadding (128 * a) (128 * 2 ^ m)).1, 128 ∣ q := by
    intro q hq
    obtain ⟨i, hi, rfl⟩ :=
      exists_of_mem_pads ha64 hdvd (Nat.dvd_mul_right _ _) (Nat.dvd_mul_right _ _) hq
    exact Nat.pow_dvd_pow 2 hi
  have hpad : (getRequiredPadding (128 * a) (128 * 2 ^ m)).2 = 128 * (alignUp a (2 ^ m) - a) := by
    omega
  rw [hsize, padded_mul, padded_mul]
  refine ⟨?_, ?_, hsizes, usedSpace_pads hsizes⟩
  · rw [hsize, padded_mul, padded_mul, hsum, ssize_eq, capacity_eq,
      alignUp_mul (by decide) (Nat.two_pow_pos m)]
    omega
  · rw [hsize, alignUp_mul (by decide) (Nat.two_pow_pos m), hpad, unpadded_mul]
    omega

variable (cfg o p) in
/-- What the loop keeps of a sector with `o` bytes in it. -/
structure Sound : Prop where
  aligned : 127 ∣ p.offset
  offset_le : p.offset ≤ cfg.capacity
  offset_eq : p.offset = o + usedSpace p.newPieces
  sizes : ∀ q ∈ p.newPieces, 128 ∣ q.size

/-- A piece is dropped, or placed at the next multiple of its size. -/
theorem sound_placePiece (hp : Sound cfg o p) (hc : cfg.Admits c) (deals : Nat) :
    Sound cfg o (placePiece cfg deals c p) ∧ (placePiece cfg deals c p).offset ≤
      alignUp p.offset (cfg.sizeOf c) + cfg.sizeOf c := by
  have hdrop : p.offset ≤ alignUp p.offset (cfg.sizeOf c) + cfg.sizeOf c :=
    Nat.le_add_right_of_le (le_alignUp (size_pos hc))
  have hpad := padded_getRequiredPadding hp.aligned hp.offset_le hc
  unfold placePiece
  split
  · exact ⟨{ hp with }, hdrop⟩
  · dsimp only
    split
    · exact ⟨{ hp with }, hdrop⟩
    · next hspace =>
      rw [hpad.space] at hspace
      obtain ⟨m, -, hsize⟩ := exists_size hc
      have hdeal : usedSpace [⟨padded (cfg.sizeOf c), some c⟩] = cfg.sizeOf c := by
        unfold usedSpace
        rw [map_singleton, sum_singleton, hsize, padded_mul, unpadded_mul]
      refine ⟨⟨?_, ?_, ?_, ?_⟩, ?_⟩
      · have hdvd : 127 ∣ cfg.sizeOf c := ⟨2 ^ m, hsize⟩
        rw [hpad.offset]
        exact Nat.dvd_add (Nat.dvd_trans hdvd (dvd_alignUp p.offset _)) hdvd
      · rw [hpad.offset]
        exact not_lt.mp hspace
      · have hoffset := hp.offset_eq
        rw [usedSpace_append, usedSpace_append, hpad.used, hdeal]
        dsimp only
        omega
      · refine forall_mem_snoc (forall_mem_append.mpr
          ⟨hp.sizes, forall_mem_map.mpr fun pad => hpad.sizes pad⟩) ?_
        rw [hsize, padded_mul]
        exact Nat.dvd_mul_right 128 _
      · rw [hpad.offset]

/-- A piece is not rejected for lack of space where it fits behind its padding. -/
theorem roomy_placePiece (hp : Sound cfg o p) (hc : cfg.Admits c)
    (hfits : alignUp p.offset (cfg.sizeOf c) + cfg.sizeOf c ≤ cfg.capacity) (deals : Nat)
    (hroomy : .notEnoughSpace ∉ p.verdicts) :
    .notEnoughSpace ∉ (placePiece cfg deals c p).verdicts := by
  have hpad := padded_getRequiredPadding hp.aligned hp.offset_le hc
  unfold placePiece
  split
  · simp [hroomy]
  · dsimp only
    rw [if_neg (by rw [hpad.space]; exact not_lt.mpr hfits)]
    simp [hroomy]

theorem sizes_pos (hcs : ∀ c ∈ cs, cfg.Admits c) : ∀ size ∈ cs.map cfg.sizeOf, 0 < size :=
  forall_mem_map.mpr fun c hc => size_pos (hcs c hc)

theorem sound_placeFrom (hp : Sound cfg o p) (hcs : ∀ c ∈ cs, cfg.Admits c)
    (deals : Nat) : Sound cfg o (placeFrom cfg deals cs p) ∧
      (placeFrom cfg deals cs p).offset ≤ extent p.offset (cs.map cfg.sizeOf) := by
  induction cs generalizing p deals with
  | nil => exact ⟨hp, le_refl _⟩
  | cons c cs ih =>
    obtain ⟨hc, hcs⟩ := forall_mem_cons.mp hcs
    obtain ⟨hsound, hoffset⟩ := sound_placePiece hp hc (deals + 1)
    obtain ⟨hrest, hend⟩ := ih hsound hcs (deals + 1)
    exact ⟨hrest, hend.trans (extent_mono (sizes_pos hcs) hoffset)⟩

/-- A row that ends within the sector is placed without a piece that lacks space. -/
theorem roomy_placeFrom (hp : Sound cfg o p) (hcs : ∀ c ∈ cs, cfg.Admits c)
    (hfits : extent p.offset (cs.map cfg.sizeOf) ≤ cfg.capacity) (deals : Nat)
    (hroomy : .notEnoughSpace ∉ p.verdicts) :
    .notEnoughSpace ∉ (placeFrom cfg deals cs p).verdicts := by
  induction cs generalizing p deals with
  | nil => exact hroomy
  | cons c cs ih =>
    obtain ⟨hc, hcs⟩ := forall_mem_cons.mp hcs
    obtain ⟨hsound, hoffset⟩ := sound_placePiece hp hc (deals + 1)
    have hnext : alignUp p.offset (cfg.sizeOf c) + cfg.sizeOf c ≤ cfg.capacity :=
      le_trans (le_extent (sizes_pos hcs)) hfits
    have hmono := extent_mono (sizes_pos hcs) hoffset
    exact ih hsound hcs (hmono.trans hfits) (deals + 1)
      (roomy_placePiece hp hc hnext _ hroomy)

end Placing

/-! ## The used space -/

section Used

variable {cfg : InputConfig} {s s' : Input} {sid : Nat} {taken : List Nat} {mt : Match}
  {round : Round}

variable {P : Nat → Prop}

variable (P) in
/-- What holds in every state of a run, where `P` has the sectors that are given evenly. -/
structure Inv (cfg : InputConfig) (s : Input) : Prop where
  sectors : SectorsFit cfg s.sectors
  pending : ∀ c b, s.pendingPieces.get? c = some b → cfg.Admits c
  awaiting : ∀ sid, ∀ c ∈ s.awaiting sid, cfg.Admits c
  /-- The row of pieces on their way into a sector ends within its used space. -/
  room : ∀ sid sector, s.openSectors.get? sid = some sector → P sid →
    extent (usedSpace (s.pieces sid)) ((s.awaiting sid).map cfg.sizeOf) ≤ sector.used ∧
      sector.used ≤ cfg.capacity

theorem dvd_usedSpace {pieces : List SectorPiece} (h : ∀ p ∈ pieces, 128 ∣ p.size) :
    127 ∣ usedSpace pieces := by
  induction pieces with
  | nil => exact Nat.dvd_zero 127
  | cons p pieces ih =>
    obtain ⟨⟨k, hk⟩, h⟩ := forall_mem_cons.mp h
    have hsum : usedSpace (p :: pieces) = unpadded p.size + usedSpace pieces := sum_cons
    rw [hsum, hk, unpadded_mul]
    exact Nat.dvd_add (Nat.dvd_mul_right 127 k) (ih h)

/-- A piece that fits into the free space fits there behind its padding. -/
theorem used_add_le {used size : Nat} (hpos : 0 < size) (hsize : size ≤ cfg.capacity - used) :
    used + ((cfg.capacity - used) % size + size) ≤ cfg.capacity := by
  have hquot : size ≤ size * ((cfg.capacity - used) / size) :=
    Nat.le_mul_of_pos_right _ (Nat.div_pos hsize hpos)
  have hdiv := Nat.mod_add_div (cfg.capacity - used) size
  omega

/-- The space behind the used one pays for the padding and the piece. -/
theorem extent_snoc_le {o used size : Nat} {sizes : List Nat} (hpos : 0 < size)
    (hdvd : size ∣ cfg.capacity) (hrow : extent o sizes ≤ used) (hle : used ≤ cfg.capacity) :
    extent o (sizes ++ [size]) ≤ used + ((cfg.capacity - used) % size + size) := by
  have hup := alignUp_eq_add hpos hle hdvd
  rw [extent_append]
  calc
    extent (extent o sizes) [size] = alignUp (extent o sizes) size + size := rfl
    _ ≤ alignUp used size + size := Nat.add_le_add_right (alignUp_mono hpos hrow) _
    _ = used + ((cfg.capacity - used) % size + size) := by rw [hup, add_assoc]

variable (cfg s mt) in
/-- A match that is passed over changes nothing; one that is taken is added to the sector. -/
theorem assignMatch_cases :
    assignMatch cfg s mt = s ∨
      ∃ sector, s.pendingPieces.get? mt.deal = some false ∧
        s.openSectors.get? mt.sector = some sector ∧ mt.size ≤ sub64 cfg.capacity sector.used ∧
        assignMatch cfg s mt =
          { s with
            assignedPieces := s.assignedPieces.insert mt.sector (s.assigned mt.sector ++ [mt.deal])
            openSectors := s.openSectors.insert mt.sector
              ⟨(sector.used + (mt.padding + mt.size)) % 2 ^ 64⟩
            pendingPieces := s.pendingPieces.insert mt.deal true } := by
  unfold assignMatch
  split
  · next sector hdeal hsector =>
    dsimp only
    split
    · exact .inl rfl
    · next hsize => exact .inr ⟨sector, hdeal, hsector, not_lt.mp hsize, rfl⟩
  · exact .inl rfl

/-- An assigned piece comes last of those on their way. -/
theorem awaiting_assign (s : Input) (opens : Table Nat OpenSector) (pending : Table Nat Bool)
    (sid sid' c : Nat) :
    Input.awaiting
        { s with
          assignedPieces := s.assignedPieces.insert sid (s.assigned sid ++ [c])
          openSectors := opens
          pendingPieces := pending } sid' =
      if sid' = sid then s.awaiting sid' ++ [c] else s.awaiting sid' := by
  simp only [awaiting, assigned, get?_insert]
  split
  · next hsid =>
    rw [hsid, append_assoc]
    rfl
  · rfl

/-- The estimate of a match is made for the space that is free before the round. -/
theorem padding_of_mem_roundMatches (h : mt ∈ roundMatches cfg s round) :
    mt.size = cfg.sizeOf mt.deal ∧ ∃ sector, s.openSectors.get? mt.sector = some sector ∧
      mt.padding = sub64 cfg.capacity sector.used % mt.size := by
  obtain ⟨piece, -, hmt⟩ := mem_flatMap.mp h
  split at hmt
  · cases hmt
  obtain ⟨⟨sid, sector⟩, hentry, hmatch⟩ := mem_filterMap.mp hmt
  have hsector := mem_pairs.mp (((round.sectors piece.1).perm _).mem_iff.mp hentry)
  unfold matchOf at hmatch
  dsimp only at hmatch
  split at hmatch
  · split at hmatch
    · cases hmatch
      exact ⟨rfl, sector, hsector, rfl⟩
    · cases hmatch
  · cases hmatch

/-- The pieces that are taken stay on their way. -/
theorem awaiting_takePieces (hadding : s.adding.get? sid = none) (sid' : Nat) :
    (s.takePieces sid).awaiting sid' = s.awaiting sid' := by
  unfold takePieces
  split
  · rfl
  · next taken htaken =>
    simp only [awaiting, assigned, get?_insert, get?_erase]
    split
    · next hsid =>
      rw [hsid, hadding, htaken]
      exact append_nil taken
    · rfl

theorem awaiting_eq (hadding : s.adding.get? sid = some taken) :
    s.awaiting sid = taken ++ s.assigned sid := by
  unfold awaiting
  rw [hadding]
  rfl

theorem awaiting_erase (s : Input) (sectors : Table Nat (List SectorPiece)) (sid sid' : Nat) :
    Input.awaiting { s with adding := s.adding.erase sid, sectors := sectors } sid' =
      if sid' = sid then s.assigned sid' else s.awaiting sid' := by
  simp only [awaiting, assigned, get?_erase]
  split
  · exact nil_append _
  · rfl

section

variable (h : Inv P cfg s)
include h

theorem Inv.pieces (sid : Nat) :
    (∀ p ∈ s.pieces sid, 128 ∣ p.size) ∧ usedSpace (s.pieces sid) ≤ cfg.capacity := by
  unfold Input.pieces
  cases hget : s.sectors.get? sid with
  | none =>
    exact ⟨forall_mem_nil _, Nat.zero_le _⟩
  | some pieces => exact h.sectors sid pieces hget

theorem Inv.sound (sid : Nat) :
    Sound cfg (usedSpace (s.pieces sid)) ⟨usedSpace (s.pieces sid), [], []⟩ where
  aligned := dvd_usedSpace (h.pieces sid).1
  offset_le := (h.pieces sid).2
  offset_eq := rfl
  sizes _ hq := nomatch hq

/-- An assigned piece keeps the room if its estimate is that of the space which is still free. -/
theorem inv_assignMatch (hsize : mt.size = cfg.sizeOf mt.deal)
    (hpad : ∀ sector, s.openSectors.get? mt.sector = some sector → P mt.sector →
      mt.padding = (cfg.capacity - sector.used) % mt.size) :
    Inv P cfg (assignMatch cfg s mt) := by
  rcases assignMatch_cases cfg _ mt with heq | ⟨sector, hdeal, hsector, havail, heq⟩
  · rwa [heq]
  rw [heq]
  have hadmits : cfg.Admits mt.deal := h.pending mt.deal false hdeal
  refine ⟨h.sectors, ?_, ?_, ?_⟩
  · exact forall_insert hadmits h.pending
  · intro sid
    rw [awaiting_assign]
    split
    · exact forall_mem_snoc (h.awaiting sid) hadmits
    · exact h.awaiting sid
  · intro sid sector' hget hP
    rw [awaiting_assign]
    rcases get?_insert_cases hget with ⟨rfl, rfl⟩ | ⟨hsid, hget⟩
    · obtain ⟨hrow, hle⟩ := h.room _ sector hsector hP
      rw [sub64_of_le hle (capacity_lt cfg)] at havail
      have hpos : 0 < mt.size := by rw [hsize]; exact size_pos hadmits
      have hpaid := extent_snoc_le hpos (by rw [hsize]; exact size_dvd hadmits) hrow hle
      have hfits := used_add_le hpos havail
      rw [← hpad sector hsector hP] at hpaid hfits
      rw [Nat.mod_eq_of_lt (hfits.trans_lt (capacity_lt cfg))]
      refine ⟨?_, hfits⟩
      rw [if_pos rfl, map_append, map_singleton, ← hsize]
      exact hpaid
    · rw [if_neg hsid]
      exact h.room sid sector' hget hP

omit h

/-- A state inside a round that started in `s`, with what the sectors were given so far. -/
structure InRound (P : Nat → Prop) (cfg : InputConfig) (s t : Input) : Prop where
  inv : Inv P cfg t
  given : ∀ sid sector, t.openSectors.get? sid = some sector → P sid →
    s.used sid ≤ cfg.capacity ∧ ∃ given, t.assigned sid = s.assigned sid ++ given ∧
      (given = [] → sector.used = s.used sid) ∧
      ∀ c ∈ given, cfg.sizeOf c ∣ s.used sid → cfg.sizeOf c ∣ sector.used

theorem inRound_start (h : Inv P cfg s) : InRound P cfg s s where
  inv := h
  given sid sector hget hP := by
    have hused : s.used sid = sector.used := by
      unfold Input.used
      rw [hget]
      rfl
    refine ⟨hused ▸ (h.room sid sector hget hP).2, [], (append_nil _).symm, fun _ => hused.symm, ?_⟩
    exact fun _ hc => nomatch hc

/-- Pieces of one size that divides the used space need no padding. -/
theorem padding_eq {used used' size : Nat} {given : List Nat} (hcap : size ∣ cfg.capacity)
    (hfirst : given = [] → used' = used)
    (hgiven : ∀ c ∈ given, cfg.sizeOf c = size ∧ size ∣ used)
    (hdvd : ∀ c ∈ given, cfg.sizeOf c ∣ used → cfg.sizeOf c ∣ used') :
    (cfg.capacity - used) % size = (cfg.capacity - used') % size ∧
      (size ∣ used → size ∣ used') := by
  cases given with
  | nil =>
    rw [hfirst rfl]
    exact ⟨rfl, id⟩
  | cons c given =>
    obtain ⟨hsize, hused⟩ := hgiven c mem_cons_self
    have hused' : size ∣ used' := hsize ▸ hdvd c mem_cons_self (hsize.symm ▸ hused)
    rw [Nat.mod_eq_zero_of_dvd (Nat.dvd_sub hcap hused),
      Nat.mod_eq_zero_of_dvd (Nat.dvd_sub hcap hused')]
    exact ⟨rfl, fun _ => hused'⟩

theorem inRound_assignMatch {t : Input} (h : InRound P cfg s t)
    (hmt : mt ∈ roundMatches cfg s round)
    (heven : ∀ sid, P sid → EvenPieces cfg (s.used sid) (s.given (assignMatch cfg t mt) sid)) :
    InRound P cfg s (assignMatch cfg t mt) := by
  obtain ⟨hsize, sector₀, hsector₀, hpadding⟩ := padding_of_mem_roundMatches hmt
  have hused₀ : s.used mt.sector = sector₀.used := by
    unfold Input.used
    rw [hsector₀]
    rfl
  rcases assignMatch_cases cfg _ mt with heq | ⟨sector, hdeal, hsector, havail, heq⟩
  · rwa [heq]
  have hadmits : cfg.Admits mt.deal := h.inv.pending mt.deal false hdeal
  have hcap : mt.size ∣ cfg.capacity := by rw [hsize]; exact size_dvd hadmits
  have hassigned : ∀ sid, (assignMatch cfg t mt).assigned sid =
      if sid = mt.sector then t.assigned sid ++ [mt.deal] else t.assigned sid := by
    intro sid
    rw [heq, assigned, get?_insert]
    split
    · next hsid => rw [hsid]; rfl
    · rfl
  -- what the sector was given before is of the size of this piece
  have hstill : P mt.sector → s.used mt.sector ≤ cfg.capacity ∧
      mt.padding = (cfg.capacity - sector.used) % mt.size ∧ ∃ given,
        t.assigned mt.sector = s.assigned mt.sector ++ given ∧
        (∀ c ∈ given, cfg.sizeOf c = mt.size) ∧
        (mt.size ∣ s.used mt.sector → mt.size ∣ sector.used) := by
    intro hP
    obtain ⟨hle, given, hgiven, hfirst, hdvd⟩ := h.given _ sector hsector hP
    have hpairs := heven _ hP
    unfold Input.given at hpairs
    rw [hassigned, if_pos rfl, hgiven, append_assoc, drop_left] at hpairs
    have hsame : ∀ c ∈ given, cfg.sizeOf c = mt.size ∧ mt.size ∣ s.used mt.sector := by
      intro c hc
      obtain ⟨heqsize, hused⟩ := (pairwise_append.mp hpairs).2.2 c hc _ (mem_singleton_self _)
      rw [hsize]
      exact ⟨heqsize, heqsize ▸ hused⟩
    obtain ⟨hpad, hdvd'⟩ := padding_eq hcap hfirst hsame hdvd
    refine ⟨hle, ?_, given, hgiven, fun c hc => (hsame c hc).1, hdvd'⟩
    rw [hpadding, ← hused₀, sub64_of_le hle (capacity_lt cfg), hpad]
  have hinv : Inv P cfg (assignMatch cfg t mt) := by
    refine inv_assignMatch h.inv hsize fun sector' hsector' hP => ?_
    rw [mem_unique hsector' hsector]
    exact (hstill hP).2.1
  refine ⟨hinv, fun sid sector' hget hP => ?_⟩
  rw [hassigned]
  rw [heq] at hget
  rcases get?_insert_cases hget with ⟨rfl, rfl⟩ | ⟨hsid, hget⟩
  · obtain ⟨hle, hpad, given, hgiven, hsame, hdvd⟩ := hstill hP
    have hroom := (h.inv.room _ sector hsector hP).2
    rw [sub64_of_le hroom (capacity_lt cfg)] at havail
    have hfits := used_add_le (hsize ▸ size_pos hadmits) havail
    refine ⟨hle, given ++ [mt.deal], ?_, fun hnil => ?_, fun c hc hused => ?_⟩
    · rw [if_pos rfl, hgiven, append_assoc]
    · simp at hnil
    · have hc : cfg.sizeOf c = mt.size := by
        rcases mem_append.mp hc with hc | hc
        · exact hsame c hc
        · rw [mem_singleton.mp hc, hsize]
      rw [hc] at hused ⊢
      rw [hpad, Nat.mod_eq_of_lt (hfits.trans_lt (capacity_lt cfg)),
        Nat.mod_eq_zero_of_dvd (Nat.dvd_sub hcap (hdvd hused)), zero_add]
      exact Nat.dvd_add (hdvd hused) (dvd_refl _)
  · rw [if_neg hsid]
    exact h.given sid sector' hget hP

/-- What was assigned stays so in a round. -/
theorem assigned_le_foldl (l : List Match) (t : Input) (sid : Nat) :
    t.assigned sid <+: (l.foldl (assignMatch cfg) t).assigned sid := by
  induction l generalizing t with
  | nil => exact prefix_rfl
  | cons mt l ih =>
    refine List.IsPrefix.trans ?_ (ih _)
    rcases assignMatch_cases cfg t mt with heq | ⟨sector, -, -, -, heq⟩
    · rw [heq]
    · rw [heq, assigned, assigned, get?_insert]
      split
      · next hsid =>
        rw [hsid]
        exact prefix_append _ _
      · exact prefix_rfl

theorem inv_foldl {l : List Match} (hl : ∀ mt ∈ l, mt ∈ roundMatches cfg s round) {t : Input}
    (h : InRound P cfg s t)
    (heven : ∀ sid, P sid →
      EvenPieces cfg (s.used sid) (s.given (l.foldl (assignMatch cfg) t) sid)) :
    Inv P cfg (l.foldl (assignMatch cfg) t) := by
  induction l generalizing t with
  | nil => exact h.inv
  | cons mt l ih =>
    obtain ⟨hmt, hl⟩ := forall_mem_cons.mp hl
    refine ih hl (inRound_assignMatch h hmt fun sid hP => ?_) heven
    exact (heven sid hP).sublist ((assigned_le_foldl l _ sid).drop _).sublist

include h

theorem inv_waitDeals (hadding : s.adding.get? sid = none)
    (started : Bool) : Inv P cfg (s.waitDeals sid started) := by
  unfold waitDeals
  split
  · exact h
  · next hassigned =>
    split
    · exact { h with
        room := fun sid' sector hget => h.room sid' sector (get?_erase_eq_some.mp hget).2 }
    · refine { h with room := forall_insert (fun _ => ?_) h.room }
      -- nothing is on its way, so the used space is that of the pieces
      have hawaiting : s.awaiting sid = [] := by
        unfold awaiting
        rw [hadding, length_eq_zero_iff.mp (Nat.le_zero.mp (not_lt.mp hassigned))]
        rfl
      have hle := (h.pieces sid).2
      rw [Nat.mod_eq_of_lt (hle.trans_lt (capacity_lt cfg))]
      refine ⟨?_, hle⟩
      change extent (usedSpace (s.pieces sid)) ((s.awaiting sid).map cfg.sizeOf) ≤ _
      rw [hawaiting]
      exact le_refl _

theorem inv_takePieces (hadding : s.adding.get? sid = none) :
    Inv P cfg (s.takePieces sid) := by
  have hawaiting := awaiting_takePieces hadding
  obtain ⟨hsectors, hpending, hopen⟩ : (s.takePieces sid).sectors = s.sectors ∧
      (s.takePieces sid).pendingPieces = s.pendingPieces ∧
      (s.takePieces sid).openSectors = s.openSectors := by
    unfold takePieces
    split <;> exact ⟨rfl, rfl, rfl⟩
  refine ⟨hsectors ▸ h.sectors, hpending ▸ h.pending, ?_, ?_⟩
  · intro sid' c hc
    rw [hawaiting] at hc
    exact h.awaiting sid' c hc
  · intro sid' sector hget hP
    rw [hopen] at hget
    rw [hawaiting, pieces, hsectors]
    exact h.room sid' sector hget hP

/-- The pieces that were assigned meanwhile still fit behind those that were taken, wherever these
end up. -/
theorem Inv.room_assigned {o : Nat} {sector : OpenSector}
    (hadding : s.adding.get? sid = some taken)
    (ho : o ≤ extent (usedSpace (s.pieces sid)) (taken.map cfg.sizeOf))
    (hget : s.openSectors.get? sid = some sector) (hP : P sid) :
    extent o ((s.assigned sid).map cfg.sizeOf) ≤ sector.used ∧ sector.used ≤ cfg.capacity := by
  obtain ⟨hrow, hle⟩ := h.room sid sector hget hP
  have hadmits := h.awaiting sid
  rw [awaiting_eq hadding] at hrow hadmits
  rw [map_append, extent_append] at hrow
  have hassigned := sizes_pos (forall_mem_append.mp hadmits).2
  exact ⟨le_trans (extent_mono hassigned ho) hrow, hle⟩

theorem admits_of_awaiting_erase (sectors : Table Nat (List SectorPiece))
    (sid sid' : Nat) : ∀ c ∈ Input.awaiting
      { s with adding := s.adding.erase sid, sectors := sectors } sid', cfg.Admits c := by
  rw [awaiting_erase]
  split
  · exact fun c hc => h.awaiting sid' c (mem_append_right _ hc)
  · exact h.awaiting sid'

theorem inv_pieceAdded (hadding : s.adding.get? sid = some taken) (ok : Bool) :
    Inv P cfg (s.pieceAdded cfg sid ok taken) := by
  have htaken : ∀ c ∈ taken, cfg.Admits c := fun c hc =>
    h.awaiting sid c (by rw [awaiting_eq hadding]; exact mem_append_left _ hc)
  unfold pieceAdded
  dsimp only
  split
  · obtain ⟨hsound, hend⟩ :=
      sound_placeFrom (h.sound sid) htaken (dealCount (s.pieces sid))
    have hused : usedSpace (s.pieces sid ++ (placeAll cfg (s.pieces sid) taken).newPieces) =
        (placeAll cfg (s.pieces sid) taken).offset := by
      rw [usedSpace_append]
      exact hsound.offset_eq.symm
    refine ⟨?_, h.pending, admits_of_awaiting_erase h _ sid, ?_⟩
    · refine forall_insert ⟨forall_mem_append.mpr ⟨(h.pieces sid).1, hsound.sizes⟩, ?_⟩ h.sectors
      rw [hused]
      exact hsound.offset_le
    · intro sid' sector hget hP
      rw [awaiting_erase, pieces, get?_insert]
      split
      · next hsid =>
        subst hsid
        rw [getD_some, hused]
        exact h.room_assigned hadding hend hget hP
      · exact h.room sid' sector hget hP
  · refine ⟨h.sectors, h.pending, admits_of_awaiting_erase h _ sid, ?_⟩
    intro sid' sector hget hP
    rw [awaiting_erase]
    split
    · next hsid =>
      subst hsid
      exact h.room_assigned hadding (le_extent (sizes_pos htaken)) hget hP
    · exact h.room sid' sector hget hP

theorem inv_packing (sid : Nat) : Inv P cfg (s.packing sid) := by
  have hassigned : ∀ sid', (s.packing sid).assigned sid' =
      if sid' = sid then [] else s.assigned sid' := by
    intro sid'
    simp only [packing, assigned, get?_erase]
    split <;> rfl
  refine ⟨h.sectors, ?_, ?_, ?_⟩
  · intro c b hget
    simp only [packing, get?_eraseAll] at hget
    split at hget
    · cases hget
    · exact h.pending c b hget
  · intro sid'
    obtain ⟨hadding, hold⟩ := forall_mem_append.mp (h.awaiting sid')
    refine forall_mem_append.mpr ⟨hadding, ?_⟩
    rw [hassigned]
    split
    · exact forall_mem_nil _
    · exact hold
  · intro sid' sector hget hP
    obtain ⟨hsid, hget⟩ := get?_erase_eq_some.mp hget
    rw [awaiting, hassigned, if_neg hsid]
    exact h.room sid' sector hget hP

end

theorem inv_step {e : InputEvent} (h : Inv P cfg s) (heven : ∀ sid, P sid → Even cfg sid s e)
    (hstep : Input.step cfg s e = some s') : Inv P cfg s' := by
  cases e with
  | addPending deal =>
    obtain ⟨hdeal, heq⟩ := ite_none_right_eq_some.mp hstep
    exact some.inj heq ▸ { h with pending := forall_insert hdeal h.pending }
  | update round =>
    exact some.inj hstep ▸ inv_foldl (fun _ hmt => (round.sorter.perm _ _).subset hmt)
      (inRound_start h) heven
  | waitDeals sid started =>
    obtain ⟨hadding, heq⟩ := ite_none_right_eq_some.mp hstep
    exact some.inj heq ▸ inv_waitDeals h hadding started
  | takePieces sid =>
    obtain ⟨hadding, heq⟩ := ite_none_right_eq_some.mp hstep
    exact some.inj heq ▸ inv_takePieces h hadding
  | pieceAdded sid ok =>
    obtain ⟨taken, hadding, rfl⟩ := map_eq_some_iff.mp hstep
    exact inv_pieceAdded h hadding ok
  | packing sid =>
    obtain ⟨-, heq⟩ := ite_none_right_eq_some.mp hstep
    exact some.inj heq ▸ inv_packing h sid

theorem inv_newInput {sectors : Table Nat (List SectorPiece)} (h : SectorsFit cfg sectors) :
    Inv P cfg (newInput sectors) where
  sectors := h
  pending _ _ hget := nomatch hget
  awaiting _ _ hc := nomatch hc
  room _ _ hget := nomatch hget

end Used

end InputLemmas

end

end OpenDsn.Pipeline
