import Mathlib.Algebra.GroupWithZero.Nat
import Mathlib.Data.List.Chain
import Mathlib.Data.Nat.Count

/-!
# Sets of numbers as runs

A finite set of numbers as a list of runs, each of which says whether its numbers are in the
set. `covers` is the set that a list of runs stands for.

* `ofPred`: the runs of a set that is given by a predicate;
* `pieces`: the runs of members with the numbers they start at;
* `members`, `memberSet`: the members in their order, and as a finite set;
* `BitFields`: the operations of a bit field package, each with what it does to the set. Models
  take them as they are given; `ofPredFields` is one implementation;
* `count_fill_le_iff`: how far a set reaches.
-/

namespace OpenDsn.Lib

open List Option

structure Run where
  val : Bool
  len : Nat
deriving DecidableEq

namespace Runs

/-- `x` is in the set. -/
def covers : List Run → Nat → Bool
  | [], _ => false
  | r :: runs, x => if x < r.len then r.val else covers runs (x - r.len)

def total (runs : List Run) : Nat := (runs.map Run.len).sum

/-- The runs with one more number before all others. Runs do not end with a gap. -/
def consBit (b : Bool) : List Run → List Run
  | [] => if b then [⟨true, 1⟩] else []
  | r :: runs => if r.val = b then ⟨b, r.len + 1⟩ :: runs else ⟨b, 1⟩ :: r :: runs

/-- The runs of the numbers below `n` with a property. -/
def ofPred : Nat → (Nat → Bool) → List Run
  | 0, _ => []
  | n + 1, p => consBit (p 0) (ofPred n fun x => p (x + 1))

/-! ## Members -/

variable {r : Run} {runs : List Run} {x : Nat}

theorem covers_cons_lt (h : x < r.len) : covers (r :: runs) x = r.val := if_pos h

theorem covers_cons_add : covers (r :: runs) (r.len + x) = covers runs x := by
  simp [covers]

theorem covers_consBit (b : Bool) :
    covers (consBit b runs) x = if x = 0 then b else covers runs (x - 1) := by
  cases runs with
  | nil => cases b <;> cases x <;> simp [consBit, covers]
  | cons r runs =>
    dsimp only [consBit]
    split
    · next hval =>
      cases x with
      | zero => simp [covers]
      | succ x => simp [covers, hval]
    · cases x with
      | zero => simp [covers]
      | succ x => simp [covers]

theorem covers_ofPred (n : Nat) (p : Nat → Bool) (x : Nat) :
    covers (ofPred n p) x = (decide (x < n) && p x) := by
  induction n generalizing p x with
  | zero => simp [ofPred, covers]
  | succ n ih =>
    unfold ofPred
    rw [covers_consBit]
    cases x with
    | zero => simp
    | succ x => simp [ih]

theorem lt_total_of_covers (h : covers runs x = true) : x < total runs := by
  induction runs generalizing x with
  | nil => cases h
  | cons r runs ih =>
    unfold covers at h
    have htotal : total (r :: runs) = r.len + total runs := by simp [total]
    split at h
    · omega
    · have := ih h
      omega

theorem covers_ofPred_of_bound {n : Nat} {p : Nat → Bool} (h : ∀ x, p x = true → x < n) (x : Nat) :
    covers (ofPred n p) x = p x := by
  rw [covers_ofPred]
  cases hp : p x with
  | false => exact Bool.and_false _
  | true => rw [decide_eq_true (h x hp), Bool.true_and]

/-! ## Runs that alternate -/

/-- No run is empty, and a run of members is as long as it can be. -/
structure Alternating (runs : List Run) : Prop where
  chain : runs.IsChain fun r s => r.val ≠ s.val
  pos : ∀ r ∈ runs, 0 < r.len

theorem Alternating.tail (h : Alternating (r :: runs)) : Alternating runs where
  chain := h.chain.tail
  pos s hs := h.pos s (mem_cons_of_mem r hs)

/-- The first run counts for the runs before it by its value only. -/
theorem Alternating.cons (h : Alternating runs) (hpos : 0 < r.len)
    (hhead : ∀ s ∈ runs.head?, r.val ≠ s.val) : Alternating (r :: runs) where
  chain := isChain_cons.mpr ⟨hhead, h.chain⟩
  pos := forall_mem_cons.mpr ⟨hpos, h.pos⟩

theorem alternating_ofPred (n : Nat) (p : Nat → Bool) : Alternating (ofPred n p) := by
  have hcons : ∀ b runs, Alternating runs → Alternating (consBit b runs) := by
    intro b runs h
    have hnil : Alternating [] := ⟨.nil, forall_mem_nil _⟩
    cases runs with
    | nil =>
      cases b
      · exact hnil
      · exact hnil.cons one_pos fun _ hs => nomatch hs
    | cons r runs =>
      dsimp only [consBit]
      obtain ⟨hhead, -⟩ := isChain_cons.mp h.chain
      split
      · next hval =>
        exact h.tail.cons (Nat.succ_pos _) fun s hs => hval ▸ hhead s hs
      · next hval =>
        exact h.cons one_pos fun s hs => some.inj hs ▸ fun heq => hval heq.symm
  induction n generalizing p with
  | zero => exact ⟨.nil, forall_mem_nil _⟩
  | succ n ih => exact hcons _ _ (ih _)

theorem lt_or_add (n x : Nat) : x < n ∨ ∃ y, x = n + y :=
  (lt_or_ge x n).imp_right Nat.exists_eq_add_of_le

/-! ## Runs of members -/

/-- The runs of members, with the numbers they start at. -/
def pieces : Nat → List Run → List (Nat × Nat)
  | _, [] => []
  | start, r :: runs =>
      if r.val then (start, r.len) :: pieces (start + r.len) runs else pieces (start + r.len) runs

theorem le_of_mem_pieces {start : Nat} {p : Nat × Nat}
    (h : p ∈ pieces start runs) : start ≤ p.1 := by
  induction runs generalizing start with
  | nil => cases h
  | cons r runs ih =>
    unfold pieces at h
    split at h
    · rcases mem_cons.mp h with rfl | h
      · exact le_refl _
      · have := ih h
        omega
    · have := ih h
      omega

theorem covers_iff_mem_pieces (start : Nat) :
    covers runs x = true ↔ ∃ p ∈ pieces start runs, p.1 ≤ start + x ∧ start + x < p.1 + p.2 := by
  induction runs generalizing start x with
  | nil => simp [covers, pieces]
  | cons r runs ih =>
    have hrest : ∀ y, covers runs y = true ↔ ∃ p ∈ pieces (start + r.len) runs,
        p.1 ≤ start + (r.len + y) ∧ start + (r.len + y) < p.1 + p.2 := by
      intro y
      rw [← add_assoc]
      exact ih (start + r.len)
    have hnot : x < r.len → ∀ p ∈ pieces (start + r.len) runs, ¬p.1 ≤ start + x := by
      intro hlt p hp
      have := le_of_mem_pieces hp
      omega
    unfold pieces
    rcases lt_or_add r.len x with hlt | ⟨y, rfl⟩
    · rw [covers_cons_lt hlt]
      split
      · next hval => simp [hval, hlt]
      · next hval =>
        refine iff_of_false hval ?_
        rintro ⟨p, hp, hle, -⟩
        exact hnot hlt p hp hle
    · rw [covers_cons_add, hrest]
      split
      · rw [exists_mem_cons_iff]
        refine ⟨.inr, ?_⟩
        rintro (⟨-, hbad⟩ | h)
        · omega
        · exact h
      · rfl

theorem pieces_pos {start : Nat} (h : Alternating runs) : ∀ p ∈ pieces start runs, 0 < p.2 := by
  induction runs generalizing start with
  | nil => exact forall_mem_nil _
  | cons r runs ih =>
    unfold pieces
    split
    · exact forall_mem_cons.mpr ⟨h.pos r mem_cons_self, ih h.tail⟩
    · exact ih h.tail

theorem pieces_separated (start : Nat) (h : Alternating runs) :
    (pieces start runs).Pairwise fun p q => p.1 + p.2 < q.1 := by
  induction runs generalizing start with
  | nil => exact .nil
  | cons r runs ih =>
    unfold pieces
    split
    · next hval =>
      refine pairwise_cons.mpr ⟨fun q hq => ?_, ih _ h.tail⟩
      cases runs with
      | nil => cases hq
      | cons s runs =>
        obtain ⟨hhead, -⟩ := isChain_cons.mp h.chain
        have hs : s.val = false := by
          have := hhead s rfl
          rw [hval] at this
          exact Bool.eq_false_iff.mpr this.symm
        have hpos : 0 < s.len := h.pos s (by simp)
        unfold pieces at hq
        rw [hs] at hq
        have hle := le_of_mem_pieces hq
        omega
    · exact ih _ h.tail

/-! ## The members one by one -/

/-- The members in increasing order. -/
def members (runs : List Run) : List Nat := (List.range (total runs)).filter (covers runs)

theorem mem_members : x ∈ members runs ↔ covers runs x = true := by
  unfold members
  rw [mem_filter, mem_range]
  exact ⟨And.right, fun h => ⟨lt_total_of_covers h, h⟩⟩

def memberSet (runs : List Run) : Finset Nat := (Finset.range (total runs)).filter (covers runs ·)

theorem mem_memberSet : x ∈ memberSet runs ↔ covers runs x = true := by
  unfold memberSet
  rw [Finset.mem_filter, Finset.mem_range]
  exact ⟨And.right, fun h => ⟨lt_total_of_covers h, h⟩⟩

/-! ## Bit fields -/

/-- The operations of a package for bit fields. -/
class BitFields where
  union : List Run → List Run → List Run
  covers_union : ∀ a b x, covers (union a b) x = (covers a x || covers b x)
  alternating_union : ∀ a b, Alternating (union a b)
  inter : List Run → List Run → List Run
  covers_inter : ∀ a b x, covers (inter a b) x = (covers a x && covers b x)
  diff : List Run → List Run → List Run
  covers_diff : ∀ a b x, covers (diff a b) x = (covers a x && !covers b x)
  alternating_diff : ∀ a b, Alternating (diff a b)
  /-- A difference may end with a gap, but not behind the first set. -/
  total_diff_le : ∀ a b, total (diff a b) ≤ total a
  /-- The set with one more member. -/
  set : List Run → Nat → List Run
  covers_set : ∀ runs x y, covers (set runs x) y = (covers runs y || decide (y = x))
  count : List Run → Nat
  count_eq : ∀ runs, count runs = (memberSet runs).card
  /-- All numbers up to the last member. -/
  fill : List Run → List Run
  covers_fill : ∀ runs x, covers (fill runs) x = true ↔ ∃ y, x ≤ y ∧ covers runs y = true
  /-- The first members, if there are so many. -/
  slice : List Run → Nat → Option (List Run)
  covers_slice : ∀ runs n out, slice runs n = some out → ∀ x,
    covers out x = (covers runs x && decide (Nat.count (covers runs · = true) x < n))
  /-- Runs of members are joined over gaps that are not longer than a bound. The gap that the runs
  end with may be taken in, the one they start with is not. -/
  joinClose : Nat → List Run → List Run
  alternating_joinClose : ∀ closeness runs, Alternating runs →
    Alternating (joinClose closeness runs)
  covers_joinClose : ∀ closeness runs x, covers runs x = true →
    covers (joinClose closeness runs) x = true
  of_covers_joinClose : ∀ closeness runs x, Alternating runs →
    covers (joinClose closeness runs) x = true →
      x < total runs ∧ ∃ y, y ≤ x ∧ covers runs y = true

export BitFields (union covers_union alternating_union inter covers_inter diff covers_diff
  alternating_diff total_diff_le set covers_set count count_eq fill covers_fill slice covers_slice
  joinClose alternating_joinClose covers_joinClose of_covers_joinClose)

section

variable [BitFields]

theorem covers_foldl_set (xs : List Nat) (y : Nat) :
    covers (xs.foldl set runs) y = (covers runs y || decide (y ∈ xs)) := by
  induction xs generalizing runs with
  | nil => simp
  | cons x xs ih =>
    rw [foldl_cons, ih, covers_set]
    simp [Bool.or_assoc]

theorem count_fill_le_iff {n : Nat} :
    count (fill runs) ≤ n ↔ ∀ x, covers runs x = true → x < n := by
  rw [count_eq]
  constructor
  · intro h x hx
    have hsub : Finset.range (x + 1) ⊆ memberSet (fill runs) := by
      intro y hy
      exact mem_memberSet.mpr
        ((covers_fill runs y).mpr ⟨x, Nat.le_of_lt_succ (Finset.mem_range.mp hy), hx⟩)
    have hcard := Finset.card_le_card hsub
    rw [Finset.card_range] at hcard
    omega
  · intro h
    have hsub : memberSet (fill runs) ⊆ Finset.range n := by
      intro y hy
      obtain ⟨x, hle, hx⟩ := (covers_fill runs y).mp (mem_memberSet.mp hy)
      exact Finset.mem_range.mpr (lt_of_le_of_lt hle (h x hx))
    exact (Finset.card_le_card hsub).trans_eq (Finset.card_range n)

end

/-! ## An implementation -/

/-- `x` is behind a member, and the next member or the end of the runs is close to it. -/
def joins (closeness : Nat) (runs : List Run) (x : Nat) : Bool :=
  (List.range (x + 1)).any fun y => covers runs y && (List.range (total runs + 1)).any fun z =>
    decide (x ≤ z) && (covers runs z || z == total runs) && decide (z ≤ y + 1 + closeness)

theorem joins_of_covers (closeness : Nat) (h : covers runs x = true) :
    joins closeness runs x = true := by
  refine List.any_eq_true.mpr ⟨x, self_mem_range_succ, Bool.and_eq_true_iff.mpr ⟨h, ?_⟩⟩
  refine List.any_eq_true.mpr ⟨x, mem_range.mpr (Nat.lt_succ_of_lt (lt_total_of_covers h)), ?_⟩
  rw [h, Bool.true_or, decide_eq_true (le_refl x), decide_eq_true (by omega)]
  rfl

theorem lt_total_of_or {a b : List Run} (h : (covers a x || covers b x) = true) :
    x < max (total a) (total b) := by
  rcases Bool.or_eq_true_iff.mp h with ha | hb
  · exact lt_of_lt_of_le (lt_total_of_covers ha) (le_max_left _ _)
  · exact lt_of_lt_of_le (lt_total_of_covers hb) (le_max_right _ _)

theorem total_ofPred_le (n : Nat) (p : Nat → Bool) : total (ofPred n p) ≤ n := by
  have hcons : ∀ b runs, total (consBit b runs) ≤ total runs + 1 := by
    intro b runs
    cases runs with
    | nil => cases b <;> decide
    | cons r runs =>
      dsimp only [consBit]
      split <;> simp [total] <;> omega
  induction n generalizing p with
  | zero => exact le_refl 0
  | succ n ih => exact (hcons _ _).trans (Nat.succ_le_succ (ih _))

/-- Every operation by its predicate. -/
instance ofPredFields : BitFields where
  union a b := ofPred (max (total a) (total b)) fun x => covers a x || covers b x
  covers_union _ _ := covers_ofPred_of_bound fun _ => lt_total_of_or
  alternating_union _ _ := alternating_ofPred _ _
  inter a b := ofPred (total a) fun x => covers a x && covers b x
  covers_inter _ _ := covers_ofPred_of_bound fun _ h =>
    lt_total_of_covers (Bool.and_eq_true_iff.mp h).1
  diff a b := ofPred (total a) fun x => covers a x && !covers b x
  covers_diff _ _ := covers_ofPred_of_bound fun _ h =>
    lt_total_of_covers (Bool.and_eq_true_iff.mp h).1
  alternating_diff _ _ := alternating_ofPred _ _
  total_diff_le _ _ := total_ofPred_le _ _
  set runs x := ofPred (max (total runs) (x + 1)) fun y => covers runs y || decide (y = x)
  covers_set runs x := covers_ofPred_of_bound fun y h => by
    rcases Bool.or_eq_true_iff.mp h with hy | hy
    · exact lt_of_lt_of_le (lt_total_of_covers hy) (le_max_left _ _)
    · exact lt_of_lt_of_le (Nat.lt_succ_of_le (of_decide_eq_true hy).le) (le_max_right _ _)
  count runs := (memberSet runs).card
  count_eq _ := rfl
  fill runs := ofPred (total runs) fun x => (List.range (total runs)).any fun y =>
    decide (x ≤ y) && covers runs y
  covers_fill runs x := by
    have hany : ∀ x, ((List.range (total runs)).any fun y => decide (x ≤ y) && covers runs y) =
        true ↔ ∃ y, x ≤ y ∧ covers runs y = true := by
      intro x
      rw [List.any_eq_true]
      constructor
      · rintro ⟨y, -, hy⟩
        exact ⟨y, by simpa using hy⟩
      · rintro ⟨y, hle, hy⟩
        exact ⟨y, mem_range.mpr (lt_total_of_covers hy), by simp [hle, hy]⟩
    rw [covers_ofPred_of_bound fun x hx => ?_]
    · exact hany x
    · obtain ⟨y, hle, hy⟩ := (hany x).mp hx
      exact lt_of_le_of_lt hle (lt_total_of_covers hy)
  slice runs n :=
    if n ≤ (memberSet runs).card then
      some (ofPred (total runs) fun x =>
        covers runs x && decide (Nat.count (covers runs · = true) x < n))
    else none
  covers_slice runs n out h := by
    split at h
    · cases h
      exact covers_ofPred_of_bound fun _ h => lt_total_of_covers (Bool.and_eq_true_iff.mp h).1
    · cases h
  joinClose closeness runs := ofPred (total runs) (joins closeness runs)
  alternating_joinClose _ _ _ := alternating_ofPred _ _
  covers_joinClose closeness runs x hx := by
    rw [covers_ofPred, decide_eq_true (lt_total_of_covers hx), joins_of_covers closeness hx]
    rfl
  of_covers_joinClose closeness runs x _ hx := by
    rw [covers_ofPred, Bool.and_eq_true_iff, decide_eq_true_iff] at hx
    obtain ⟨y, hy, hcovers⟩ := List.any_eq_true.mp hx.2
    exact ⟨hx.1, y, Nat.le_of_lt_succ (mem_range.mp hy), (Bool.and_eq_true_iff.mp hcovers).1⟩

end Runs

end OpenDsn.Lib
