import OpenDsn.Chain.Checkpoint
import OpenDsn.Lib.Champion

/-!
# Ties of weight

Tipsets of one weight that are all within the fork limit of each other are offered
to the store again and again. `breakWeightTie` looks for a position at which the
first tipset has the lower ticket, and does not stop at a position at which the
second one has. So for two tipsets that have both, each wins against the other.

* `ties_settle_iff`: ties are decided one way only, and a second round of offers
  leaves the head alone, exactly when no two of the tipsets cross in this way;
* `crossing_flips_head`: two crossing tipsets, and a head that flips between them.
-/

namespace OpenDsn.Chain

open Lib List Option

section

variable (env : StoreEnv) (cs : ChainStore)

/-- Tipsets offered one after the other; a call that fails changes nothing. -/
def offers (l : List TipSet) : ChainStore :=
  l.foldl (fun cs ts => (commit cs (maybeTakeHeavierTipSet env cs ts)).1) cs

/-- At position `i`, `ts1` has the lower ticket. -/
def LowerAt (ts1 ts2 : TipSet) (i : Nat) : Prop :=
  ∃ b1 b2, ts1.blks[i]? = some b1 ∧ ts2.blks[i]? = some b2 ∧
    env.less (env.ticket b1) (env.ticket b2) = true

/-- Each of the two tipsets has the lower ticket somewhere. -/
def Crossing (ts1 ts2 : TipSet) : Prop :=
  ∃ i j, LowerAt env ts1 ts2 i ∧ LowerAt env ts2 ts1 j

/-- Tipsets of weight `w`, each within the fork limit of the others. -/
structure Tied (S : List TipSet) (w : Int) : Prop where
  weight : ∀ a ∈ S, env.weight (some a) = some w
  limit : ∀ a ∈ S, ∀ b ∈ S, exceedsForkLength env cs (some a) b = .ok false

/-- A head from which the tipsets are offered: one of them, or one of another weight
within the fork limit, which may be no head at all. -/
def StartsFrom (S : List TipSet) (w : Int) (head : Option TipSet) : Prop :=
  (∃ h ∈ S, head = some h) ∨
    ∃ w₀, w₀ ≠ w ∧ env.weight head = some w₀ ∧ ∀ b ∈ S, exceedsForkLength env cs head b = .ok false

/-- Offers that were made before leave the head where it is. -/
def Settles (S : List TipSet) : Prop :=
  ∀ first second : List TipSet, first ⊆ S → second ⊆ first →
    (offers env cs (first ++ second)).heaviest = (offers env cs first).heaviest

end

namespace WeightTieLemmas

open StoreLemmas

variable {env : StoreEnv} {u : Headers} {cs : ChainStore} {S l : List TipSet} {w : Int}
  {a b c ts h : TipSet}

/-! ### Tickets -/

theorem breakTieLoop_iff {l l' : List BlockHeader} :
    breakTieLoop env l l' = true ↔ ∃ (i : Nat) (b1 b2 : BlockHeader),
      l[i]? = some b1 ∧ l'[i]? = some b2 ∧ env.less (env.ticket b1) (env.ticket b2) = true := by
  induction l generalizing l' with
  | nil => simp [breakTieLoop]
  | cons b l ih =>
    cases l' with
    | nil => simp [breakTieLoop]
    | cons b' l' =>
      unfold breakTieLoop
      constructor
      · intro h
        split at h
        · next hless => exact ⟨0, b, b', rfl, rfl, hless⟩
        · obtain ⟨i, b1, b2, h1, h2, hless⟩ := ih.mp h
          exact ⟨i + 1, b1, b2, h1, h2, hless⟩
      · rintro ⟨i, b1, b2, h1, h2, hless⟩
        split
        · rfl
        · next hnot =>
          cases i with
          | zero =>
            cases h1
            cases h2
            exact absurd hless hnot
          | succ i => exact ih.mpr ⟨i, b1, b2, h1, h2, hless⟩

theorem breakWeightTie_iff : breakWeightTie env a b = true ↔ ∃ i, LowerAt env a b i :=
  breakTieLoop_iff

theorem not_lowerAt_self (i : Nat) : ¬ LowerAt env a a i := by
  rintro ⟨b1, b2, h1, h2, hless⟩
  cases h1.symm.trans h2
  simp [StoreEnv.less] at hless

/-- The digest of the ticket at a position. -/
def ticketAt (env : StoreEnv) (ts : TipSet) (i : Nat) : Option Nat :=
  ts.blks[i]?.map fun b => env.digest (env.ticket b)

theorem lowerAt_iff {i : Nat} :
    LowerAt env a b i ↔ ∃ x y, ticketAt env a i = some x ∧ ticketAt env b i = some y ∧ x < y := by
  constructor
  · rintro ⟨b1, b2, h1, h2, hless⟩
    exact ⟨_, _, by rw [ticketAt, h1]; rfl, by rw [ticketAt, h2]; rfl, of_decide_eq_true hless⟩
  · rintro ⟨x, y, hx, hy, hlt⟩
    obtain ⟨b1, h1, rfl⟩ := map_eq_some_iff.mp hx
    obtain ⟨b2, h2, rfl⟩ := map_eq_some_iff.mp hy
    exact ⟨b1, b2, h1, h2, decide_eq_true hlt⟩

/-- A tipset has tickets up to its number of blocks. -/
theorem ticketAt_of_lt {i j : Nat} (hij : i ≤ j) {y : Nat} (hj : ticketAt env a j = some y) :
    ∃ x, ticketAt env a i = some x := by
  obtain ⟨b, hb, -⟩ := map_eq_some_iff.mp hj
  have hlt : i < a.blks.length :=
    hij.trans_lt (List.getElem?_eq_some_iff.mp hb).1
  exact ⟨_, by rw [ticketAt, List.getElem?_eq_getElem hlt]; rfl⟩

/-- Where two tipsets do not cross and `a` is lower somewhere, it is nowhere higher. -/
theorem le_of_not_crossing (hcross : ¬ Crossing env a b) {i : Nat} (hi : LowerAt env a b i)
    {j x y : Nat} (hx : ticketAt env a j = some x) (hy : ticketAt env b j = some y) : x ≤ y := by
  by_contra hlt
  exact hcross ⟨i, j, hi, lowerAt_iff.mpr ⟨y, x, hy, hx, Nat.lt_of_not_le hlt⟩⟩

/-- Of the two positions, the one that is lower decides for all three tipsets. -/
theorem lowerAt_trans (hab : ¬ Crossing env a b) (hbc : ¬ Crossing env b c) {i j : Nat}
    (hi : LowerAt env a b i) (hj : LowerAt env b c j) : ∃ k, LowerAt env a c k := by
  obtain ⟨x, y, hx, hy, hxy⟩ := lowerAt_iff.mp hi
  obtain ⟨y', z, hy', hz, hyz⟩ := lowerAt_iff.mp hj
  rcases Nat.le_total i j with hij | hij
  · obtain ⟨z', hz'⟩ := ticketAt_of_lt hij hz
    exact ⟨i, lowerAt_iff.mpr ⟨x, z', hx, hz',
      hxy.trans_le (le_of_not_crossing hbc hj hy hz')⟩⟩
  · obtain ⟨x', hx'⟩ := ticketAt_of_lt hij hx
    exact ⟨j, lowerAt_iff.mpr ⟨x', z, hx', hz,
      lt_of_le_of_lt (le_of_not_crossing hab hi hx' hy') hyz⟩⟩

/-! ### Winning a tie -/

/-- `a` takes the place of the head `b` of the same weight. -/
def outbids (env : StoreEnv) (a b : TipSet) : Bool := !a.equals b && breakWeightTie env a b

theorem outbids_iff (ha : u.Has a) (hb : u.Has b) :
    outbids env a b = true ↔ ∃ i, LowerAt env a b i := by
  unfold outbids
  rw [Bool.and_eq_true, Bool.not_eq_true', breakWeightTie_iff, and_iff_right_iff_imp]
  rintro ⟨i, hi⟩
  rw [Bool.eq_false_iff]
  intro heq
  obtain rfl := (equals_iff ha hb).mp heq
  exact not_lowerAt_self i hi

theorem beatsOrder (hS : ∀ a ∈ S, u.Has a) (hcross : ∀ a ∈ S, ∀ b ∈ S, ¬ Crossing env a b) :
    BeatsOrder (outbids env) S where
  asymm a ha b hb h := by
    obtain ⟨i, hi⟩ := (outbids_iff (hS a ha) (hS b hb)).mp h
    rw [Bool.eq_false_iff]
    intro h'
    obtain ⟨j, hj⟩ := (outbids_iff (hS b hb) (hS a ha)).mp h'
    exact hcross a ha b hb ⟨i, j, hi, hj⟩
  trans a ha b hb c hc h h' := by
    obtain ⟨i, hi⟩ := (outbids_iff (hS a ha) (hS b hb)).mp h
    obtain ⟨j, hj⟩ := (outbids_iff (hS b hb) (hS c hc)).mp h'
    exact (outbids_iff (hS a ha) (hS c hc)).mpr
      (lowerAt_trans (hcross a ha b hb) (hcross b hb c hc) hi hj)

/-! ### Offers -/

/-- An offer whose weight and fork length are known. -/
theorem offer_eq {w₀ : Int} {heavier : Bool} (hw : env.weight (some ts) = some w)
    (hw₀ : env.weight cs.heaviest = some w₀) (hh : isHeavier env cs ts w w₀ = .ok heavier)
    (hlimit : exceedsForkLength env cs cs.heaviest ts = .ok false) :
    (commit cs (maybeTakeHeavierTipSet env cs ts)).1 =
      if heavier then takeHeaviestTipSet cs ts else cs := by
  unfold maybeTakeHeavierTipSet weightOf
  simp only [hw, hw₀, bind, Except.bind, hh, hlimit]
  cases heavier <;> rfl

theorem isHeavier_tie :
    isHeavier env (takeHeaviestTipSet cs h) ts w w = .ok (outbids env ts h) := by
  unfold isHeavier takeHeaviestTipSet outbids TipSet.equals?
  cases heq : ts.equals h <;> simp [heq]

theorem offer_tied (ht : Tied env cs S w) (hh : h ∈ S) (hts : ts ∈ S) :
    (commit (takeHeaviestTipSet cs h)
      (maybeTakeHeavierTipSet env (takeHeaviestTipSet cs h) ts)).1 =
        takeHeaviestTipSet cs (if outbids env ts h then ts else h) := by
  have hlimit := (exceedsForkLength_heaviest cs (some h) (some h)).trans (ht.limit h hh ts hts)
  rw [offer_eq (ht.weight ts hts) (ht.weight h hh) isHeavier_tie hlimit]
  split <;> rfl

/-- From one of the tied tipsets, the head is the champion of the offers. -/
theorem offers_tied (ht : Tied env cs S w) (hh : h ∈ S) (hl : l ⊆ S) :
    offers env (takeHeaviestTipSet cs h) l =
      takeHeaviestTipSet cs (champion (outbids env) h l) := by
  induction l generalizing h with
  | nil => rfl
  | cons ts l ih =>
    obtain ⟨hts, hl⟩ := cons_subset.mp hl
    rw [champion_cons, offers, foldl_cons, offer_tied ht hh hts]
    split
    · exact ih hts hl
    · exact ih hh hl

theorem isHeavier_other {w₀ : Int} (hne : w₀ ≠ w) : isHeavier env cs ts w w₀ = .ok (w > w₀) := by
  unfold isHeavier
  rw [if_neg fun h => hne h.1.symm]

theorem settles_of_not_crossing (hS : ∀ a ∈ S, u.Has a) (ht : Tied env cs S w)
    (hcross : ∀ a ∈ S, ∀ b ∈ S, ¬ Crossing env a b) {head : Option TipSet}
    (hstart : StartsFrom env cs S w head) : Settles env { cs with heaviest := head } S := by
  have ho := beatsOrder hS hcross
  intro first second hfirst hsecond
  have hall : first ++ second ⊆ S := append_subset.mpr ⟨hfirst, fun x hx => hfirst (hsecond hx)⟩
  rcases hstart with ⟨h, hh, rfl⟩ | ⟨w₀, hne, hw₀, hlimit⟩
  · rw [show { cs with heaviest := some h } = takeHeaviestTipSet cs h from rfl,
      offers_tied ht hh hall, offers_tied ht hh hfirst, ho.champion_append hh hfirst hsecond]
  have hoffer : ∀ ts ∈ S, (commit { cs with heaviest := head }
      (maybeTakeHeavierTipSet env { cs with heaviest := head } ts)).1 =
        if w > w₀ then takeHeaviestTipSet cs ts else { cs with heaviest := head } := by
    intro ts hts
    have hlimit' := (exceedsForkLength_heaviest cs head head).trans (hlimit ts hts)
    rw [offer_eq (ht.weight ts hts) hw₀ (isHeavier_other hne) hlimit']
    simp only [decide_eq_true_eq]
    rfl
  by_cases hlt : w > w₀
  · -- the first offer takes over from the lighter head
    cases first with
    | nil => rw [subset_nil.mp hsecond, append_nil]
    | cons ts first =>
      obtain ⟨hts, hfirst'⟩ := cons_subset.mp hfirst
      rw [cons_append, cons_subset] at hall
      rw [cons_append, offers, offers, foldl_cons, foldl_cons, hoffer ts hts, if_pos hlt]
      show (offers env _ _).heaviest = (offers env _ _).heaviest
      rw [offers_tied ht hts hall.2, offers_tied ht hts hfirst']
      have hagain : champion (outbids env) ts (ts :: first) = champion (outbids env) ts first := by
        rw [champion_cons, ite_self]
      have := ho.champion_append hts hfirst hsecond
      rw [hagain, cons_append, champion_cons, ite_self] at this
      rw [this]
  · -- the heavier head declines every offer
    have hstay : ∀ l ⊆ S, offers env { cs with heaviest := head } l =
        { cs with heaviest := head } := by
      intro l hl
      induction l with
      | nil => rfl
      | cons ts l ih =>
        obtain ⟨hts, hl⟩ := cons_subset.mp hl
        rw [offers, foldl_cons, hoffer ts hts, if_neg hlt]
        exact ih hl
    rw [hstay _ hfirst, hstay _ hall]

/-- From one of two crossing tipsets, the head goes to the other and back. -/
theorem not_settles_of_crossing (hS : ∀ a ∈ S, u.Has a) (ht : Tied env cs S w) (ha : a ∈ S)
    (hb : b ∈ S) (hcross : Crossing env a b) :
    ¬ Settles env { cs with heaviest := some a } S := by
  obtain ⟨i, j, hi, hj⟩ := hcross
  have hab := (outbids_iff (hS a ha) (hS b hb)).mpr ⟨i, hi⟩
  have hba := (outbids_iff (hS b hb) (hS a ha)).mpr ⟨j, hj⟩
  intro hsettle
  have hsub : [b, a] ⊆ S := by
    intro x hx
    rcases mem_pair.mp hx with rfl | rfl
    · exact hb
    · exact ha
  have hsame := hsettle [b, a] [b] hsub (fun x hx => by simp [mem_singleton.mp hx])
  have hall : [b, a] ++ [b] ⊆ S :=
    append_subset.mpr ⟨hsub, fun x hx => by rwa [mem_singleton.mp hx]⟩
  rw [show { cs with heaviest := some a } = takeHeaviestTipSet cs a from rfl,
    offers_tied ht ha hall, offers_tied ht ha hsub] at hsame
  simp only [champion, cons_append, nil_append, foldl_cons, foldl_nil, hab, hba,
    takeHeaviestTipSet, some.injEq, if_true] at hsame
  subst hsame
  exact not_lowerAt_self i hi

end WeightTieLemmas

open WeightTieLemmas in
/-- For tied tipsets: no two win against each other exactly when no two cross, and a
second round of offers leaves the head alone, from whatever head the offers start,
exactly when no two cross. -/
theorem ties_settle_iff {env : StoreEnv} {u : Headers} {cs : ChainStore} {S : List TipSet} {w : Int}
    (hS : ∀ a ∈ S, u.Has a) (ht : Tied env cs S w) :
    ((∀ a ∈ S, ∀ b ∈ S, a ≠ b → ¬ (breakWeightTie env a b = true ∧ breakWeightTie env b a = true)) ↔
      ∀ a ∈ S, ∀ b ∈ S, ¬ Crossing env a b) ∧
    ((∀ head, StartsFrom env cs S w head → Settles env { cs with heaviest := head } S) ↔
      ∀ a ∈ S, ∀ b ∈ S, ¬ Crossing env a b) := by
  refine ⟨⟨fun h a ha b hb hcross => ?_, fun h a ha b hb _ hboth => ?_⟩,
    ⟨fun h a ha b hb hcross => ?_, fun h head hstart => settles_of_not_crossing hS ht h hstart⟩⟩
  · obtain ⟨i, j, hi, hj⟩ := hcross
    have hne : a ≠ b := by
      rintro rfl
      exact not_lowerAt_self i hi
    exact h a ha b hb hne ⟨breakWeightTie_iff.mpr ⟨i, hi⟩, breakWeightTie_iff.mpr ⟨j, hj⟩⟩
  · obtain ⟨i, hi⟩ := breakWeightTie_iff.mp hboth.1
    obtain ⟨j, hj⟩ := breakWeightTie_iff.mp hboth.2
    exact h a ha b hb ⟨i, j, hi, hj⟩
  · exact not_settles_of_crossing hS ht ha hb hcross (h (some a) (.inl ⟨a, ha, rfl⟩))

/-! ## Two crossing tipsets -/

/-- A tipset on `rootTs` with two blocks, whose tickets in `plainEnv` are their CIDs. -/
def pairTs (c d : BlockCid) : TipSet where
  blks := [⟨c, [0], 1, 100⟩, ⟨d, [0], 1, 100⟩]
  blks_ne := by simp
  same_height := by simp
  same_parents := by simp

/-- The store with the blocks of two tipsets, of which the first is the head. -/
def pairStore (a b : TipSet) : ChainStore :=
  ⟨rootTs.blks ++ a.blks ++ b.blks, fun _ => [], some a, none⟩

def pairHeader (c : BlockCid) : Option BlockHeader :=
  if c = 0 then some rootTs.first else some ⟨c, [0], 1, 100⟩

def pairHeaders : Headers where
  header := pairHeader
  header_cid h := by
    unfold pairHeader at h
    split_ifs at h with hc <;> cases h
    · exact hc.symm
    · rfl
  parent_lower h hp hpb := by
    unfold pairHeader at h
    split_ifs at h <;> cases h
    · cases hp
    · cases List.mem_singleton.mp hp
      cases hpb
      exact Nat.zero_lt_one

/-- Tickets 1 and 5 win against 2 and 6 at both positions, so the head settles. -/
theorem ties_settle_iff_ordered :
    Settles plainEnv (pairStore (pairTs 1 5) (pairTs 2 6)) [pairTs 1 5, pairTs 2 6] := by
  have ht : Tied plainEnv (pairStore (pairTs 1 5) (pairTs 2 6)) [pairTs 1 5, pairTs 2 6] 1 :=
    ⟨by decide +kernel, by decide +kernel⟩
  have hS : ∀ a ∈ [pairTs 1 5, pairTs 2 6], pairHeaders.Has a := by decide
  have hiff := ties_settle_iff hS ht
  have hcross := hiff.1.mp (by decide +kernel)
  exact hiff.2.mpr hcross (some (pairTs 1 5)) (.inl ⟨pairTs 1 5, by decide, rfl⟩)

/-- Tickets 1 and 5 win against 2 and 3 by the first position, and lose against them by
the second one: the head goes there and back for as long as they are offered. -/
theorem crossing_flips_head : newTipSet plainEnv (pairTs 1 5).blks = .ok (pairTs 1 5) ∧
    newTipSet plainEnv (pairTs 2 3).blks = .ok (pairTs 2 3) ∧
    plainEnv.weight (some (pairTs 1 5)) = plainEnv.weight (some (pairTs 2 3)) ∧
    breakWeightTie plainEnv (pairTs 1 5) (pairTs 2 3) = true ∧
    breakWeightTie plainEnv (pairTs 2 3) (pairTs 1 5) = true ∧
    (offers plainEnv (pairStore (pairTs 1 5) (pairTs 2 3)) [pairTs 2 3, pairTs 1 5]).heaviest =
      some (pairTs 1 5) ∧
    (offers plainEnv (pairStore (pairTs 1 5) (pairTs 2 3))
      [pairTs 2 3, pairTs 1 5, pairTs 2 3]).heaviest = some (pairTs 2 3) := by
  decide +kernel

end OpenDsn.Chain
