import Mathlib.Tactic.Ring
import OpenDsn.Lib.Run
import OpenDsn.Lib.Table

/-!
# The prove handler of WindowPoSt

`storage/wdpost/wdpost_changehandler.go`, `proveHandler`: one proof is generated at a time. A head
change aborts the generation of a window that has closed, and starts one for the first deadline
whose proofs are not in the cache. A generation reports its result at any time, also after it was
aborted. `current` is the generation that the handler takes to be running.

* `firstIncomplete_ends`: the search for a deadline without proofs ends;
* `proves_once_of_apart`: one generation that was not aborted is running at most, and no deadline is
  started while a generation for it is running, if no other generation than the current one
  succeeds while there is a current one, and the head does not go back to a deadline whose
  generation was aborted and is still running;
* `deadline_started_twice`: an aborted generation succeeds late.
-/

namespace OpenDsn.Wdpost

open Lib List Option

/-- `dline.Info`. -/
structure Info where
  currentEpoch : Int
  periodStart : Int
  index : Nat
  «open» : Int
  close : Int
  challenge : Int
deriving DecidableEq

/-- The constants of the miner actor, and `dline.NewInfo` for them. -/
structure DeadlineParams where
  /-- `WPoStPeriodDeadlines` -/
  periodDeadlines : Nat
  /-- `WPoStChallengeWindow` -/
  challengeWindow : Int
  window_pos : 0 < challengeWindow
  newInfo : Int → Nat → Int → Info
  newInfo_periodStart : ∀ start i epoch, (newInfo start i epoch).periodStart = start
  newInfo_index : ∀ start i epoch, (newInfo start i epoch).index = i
  newInfo_open : ∀ start i epoch, i < periodDeadlines →
    (newInfo start i epoch).open = start + i * challengeWindow

/-- `WPoStProvingPeriod`. -/
def DeadlineParams.provingPeriod (p : DeadlineParams) : Int := p.periodDeadlines * p.challengeWindow

/-- A deadline of the proving period, with the epoch in which it opens. -/
def Info.Regular (p : DeadlineParams) (di : Info) : Prop :=
  di.index < p.periodDeadlines ∧ di.open = di.periodStart + di.index * p.challengeWindow

instance (p : DeadlineParams) (di : Info) : Decidable (di.Regular p) :=
  inferInstanceAs (Decidable (_ ∧ _))

/-- `NewDeadlineInfo`. -/
def newDeadlineInfo (p : DeadlineParams) (periodStart : Int) (deadlineIdx : Nat)
    (currEpoch : Int) : Info :=
  p.newInfo periodStart deadlineIdx currEpoch

def nextDeadline (p : DeadlineParams) (currentDeadline : Info) : Info :=
  let newDeadline := currentDeadline.index + 1
  if newDeadline = p.periodDeadlines then
    newDeadlineInfo p (currentDeadline.periodStart + p.provingPeriod) 0
      currentDeadline.currentEpoch
  else newDeadlineInfo p currentDeadline.periodStart newDeadline currentDeadline.currentEpoch

/-- `SubmitWindowedPoStParams`, of which only their number is looked at. -/
abbrev Posts := List Nat

/-- `postsCache`, by the epochs in which the windows open. -/
abbrev PostsCache := Table Int Posts

/-- `ChallengeConfidence`. -/
def challengeConfidence : Int := 1

/-- A call of `startGeneratePoST`. -/
structure Generation where
  di : Info
  aborted : Bool
  /-- Its result has come. -/
  done : Bool
deriving DecidableEq

/-- A generation runs on without having been aborted. -/
def Generation.live (g : Generation) : Bool := !g.aborted && !g.done

/-- A generation is known by its place in the list. -/
structure ProveHandler where
  posts : PostsCache
  current : Option Nat
  generations : List Generation
  /-- `shutdownCtx` is done. -/
  stopped : Bool

inductive ProveEvent
  | headChange (height : Int) (di : Info)
  /-- The proofs of a generation, or its failure. -/
  | postResult (id : Nat) (posts : Option Posts)
  | shutdown

/-- The first deadline from `di` on whose proofs are not in the cache. -/
def firstIncomplete (p : DeadlineParams) (posts : PostsCache) : Nat → Info → Option Info
  | 0, _ => none
  | fuel + 1, di =>
      match posts.get? di.open with
      | none => some di
      | some _ => firstIncomplete p posts fuel (nextDeadline p di)

namespace ProveHandler

variable (p : DeadlineParams) (s : ProveHandler)

def abort (id : Nat) : ProveHandler :=
  { s with generations := s.generations.modify id fun g => { g with aborted := true } }

/-- Aborts the current proof if its window has closed. -/
def expire (height : Int) : ProveHandler :=
  match s.current with
  | none => s
  | some id =>
      match s.generations[id]? with
      | none => s
      | some g => if height ≥ g.di.close then { s.abort id with current := none } else s

def start (di : Info) : ProveHandler :=
  { s with
    current := some s.generations.length
    generations := s.generations ++ [⟨di, false, false⟩] }

/-- `processHeadChange`; no result if the search for a deadline does not end. -/
def processHeadChange (height : Int) (di : Info) : Option ProveHandler :=
  let s := s.expire height
  match s.current with
  | some _ => some s
  | none =>
      match firstIncomplete p s.posts (s.posts.size + 2) di with
      | none => none
      | some di => some (if height < di.challenge + challengeConfidence then s else s.start di)

/-- `processPostResult`, for a generation that has not reported before. -/
def processPostResult (id : Nat) (result : Option Posts) : Option ProveHandler :=
  match s.generations[id]? with
  | none => none
  | some g =>
      if g.done then none
      else
        let generations := s.generations.modify id fun g => { g with done := true }
        match result with
        | none =>
            some { s with
              current := if s.current = some id then none else s.current
              generations }
        | some posts =>
            some { s with
              posts := s.posts.insert g.di.open posts
              current := none
              generations }

/-- The deferred function of `run`. -/
def shutdown : ProveHandler :=
  match s.current with
  | none => { s with stopped := true }
  | some id => { s.abort id with stopped := true }

/-- One round of `run`. -/
def step (e : ProveEvent) : Option ProveHandler :=
  if s.stopped then none
  else
    match e with
    | .headChange height di => s.processHeadChange p height di
    | .postResult id posts => s.processPostResult id posts
    | .shutdown => some s.shutdown

end ProveHandler

def newProver : ProveHandler := ⟨∅, none, [], false⟩

/-- One generation that was not aborted is running at most, and a deadline is not started while a
generation for it, aborted or not, is running. -/
structure ProveHandler.ProvesOnce (s : ProveHandler) : Prop where
  one : ∀ (i j : Nat) (g g' : Generation), s.generations[i]? = some g →
    s.generations[j]? = some g' → g.live = true → g'.live = true → i = j
  notTwice : ∀ (i j : Nat) (g g' : Generation), i < j → s.generations[i]? = some g →
    s.generations[j]? = some g' → g.di.open = g'.di.open → g.done = true

/-- A generation succeeds while it is the current one, or while there is none. The deadline of a
head is one of the proving period, and after those of the generations that were aborted, or are
with this head, and have not reported. -/
def ProveHandler.KeepsApart (p : DeadlineParams) (s : ProveHandler) : ProveEvent → Prop
  | .postResult id (some _) => s.current = none ∨ s.current = some id
  | .headChange height di => di.Regular p ∧ ∀ g ∈ s.generations, g.done = false →
      g.aborted = true ∨ g.di.close ≤ height → g.di.open < di.open
  | _ => True

instance (p : DeadlineParams) (s : ProveHandler) : (e : ProveEvent) → Decidable (s.KeepsApart p e)
  | .postResult id (some _) => inferInstanceAs (Decidable (s.current = none ∨ s.current = some id))
  | .headChange .. => inferInstanceAs (Decidable (_ ∧ _))
  | .postResult _ none | .shutdown => isTrue trivial

/-! ## The search for a deadline -/

namespace ProveLemmas

section Search

variable {p : DeadlineParams} {di : Info} {posts : PostsCache}

theorem regular_newDeadlineInfo {periodStart currEpoch : Int} {index : Nat}
    (h : index < p.periodDeadlines) :
    (newDeadlineInfo p periodStart index currEpoch).Regular p := by
  unfold newDeadlineInfo Info.Regular
  rw [p.newInfo_index, p.newInfo_periodStart]
  exact ⟨h, p.newInfo_open _ _ _ h⟩

theorem regular_nextDeadline (h : di.index < p.periodDeadlines) :
    (nextDeadline p di).Regular p := by
  unfold nextDeadline
  dsimp only
  split
  · exact regular_newDeadlineInfo (Nat.lt_of_le_of_lt (Nat.zero_le _) h)
  · next hne => exact regular_newDeadlineInfo (Nat.lt_of_le_of_ne h hne)

/-- A deadline opens one window after the deadline before it, also in the next period. -/
theorem open_nextDeadline (h : di.Regular p) :
    (nextDeadline p di).open = di.open + p.challengeWindow := by
  have hpos : 0 < p.periodDeadlines := Nat.lt_of_le_of_lt (Nat.zero_le _) h.1
  unfold nextDeadline newDeadlineInfo
  rw [h.2]
  dsimp only
  split
  · next hlast =>
    rw [p.newInfo_open _ _ _ hpos]
    unfold DeadlineParams.provingPeriod
    rw [← hlast]
    push_cast
    ring
  · next hne =>
    rw [p.newInfo_open _ _ _ (Nat.lt_of_le_of_ne h.1 hne)]
    push_cast
    ring

theorem open_lt_nextDeadline (h : di.Regular p) : di.open < (nextDeadline p di).open := by
  rw [open_nextDeadline h]
  exact Int.lt_add_of_pos_right _ p.window_pos

/-- The search only goes to later deadlines. -/
theorem open_le_of_firstIncomplete {fuel : Nat} {di' : Info} (h : di.Regular p)
    (hfirst : firstIncomplete p posts fuel di = some di') : di.open ≤ di'.open := by
  induction fuel generalizing di with
  | zero => cases hfirst
  | succ fuel ih =>
    unfold firstIncomplete at hfirst
    split at hfirst
    · cases hfirst
      exact Int.le_refl _
    · exact (open_lt_nextDeadline h).le.trans (ih (regular_nextDeadline h.1) hfirst)

/-- Each deadline that the search passes is a key of its own in the cache. -/
theorem fuel_le_of_none {fuel : Nat} (h : di.Regular p)
    (hnone : firstIncomplete p posts fuel di = none) :
    fuel ≤ (posts.keys.toFinset.filter (di.open ≤ ·)).card := by
  induction fuel generalizing di with
  | zero => exact Nat.zero_le _
  | succ fuel ih =>
    unfold firstIncomplete at hnone
    split at hnone
    · cases hnone
    next cached hget =>
    have hnext := open_lt_nextDeadline h
    have hmem : di.open ∈ posts.keys.toFinset :=
      mem_toFinset.mpr (Table.mem_keys_iff.mpr ⟨cached, hget⟩)
    refine Nat.lt_of_le_of_lt (ih (regular_nextDeadline h.1) hnone)
      (Finset.card_lt_card (Finset.ssubset_iff_of_subset ?_ |>.mpr ⟨di.open, ?_, ?_⟩))
    · intro k hk
      obtain ⟨hk, hle⟩ := Finset.mem_filter.mp hk
      exact Finset.mem_filter.mpr ⟨hk, Int.le_trans (Int.le_of_lt hnext) hle⟩
    · exact Finset.mem_filter.mpr ⟨hmem, Int.le_refl _⟩
    · intro hk
      exact Int.not_le.mpr hnext (Finset.mem_filter.mp hk).2

end Search

end ProveLemmas

open ProveLemmas in
/-- From a deadline of the proving period the search of `processHeadChange` ends, whatever the
cache holds. -/
theorem firstIncomplete_ends (p : DeadlineParams) (posts : PostsCache) {di : Info}
    (h : di.index < p.periodDeadlines) :
    (firstIncomplete p posts (posts.size + 2) di).isSome := by
  rw [isSome_iff_ne_none]
  intro hnone
  -- the epoch of the first deadline is the chain's; the ones after it are computed
  rw [firstIncomplete.eq_def] at hnone
  dsimp only at hnone
  split at hnone
  · cases hnone
  have hle := fuel_le_of_none (regular_nextDeadline h) hnone
  have hkeys : (posts.keys.toFinset.filter ((nextDeadline p di).open ≤ ·)).card ≤ posts.size := by
    rw [Table.size_eq_length_keys]
    exact le_trans (Finset.card_filter_le _ _) (toFinset_card_le _)
  exact Nat.not_succ_le_self _ (hle.trans hkeys)

/-- The constants of the network, with a lookback of 20. -/
def mainnetDeadlines : DeadlineParams where
  periodDeadlines := 48
  challengeWindow := 60
  window_pos := by decide
  newInfo start i epoch :=
    ⟨epoch, start, i, start + i * 60, start + i * 60 + 60, start + i * 60 - 20⟩
  newInfo_periodStart _ _ _ := rfl
  newInfo_index _ _ _ := rfl
  newInfo_open _ _ _ _ := rfl

/-- A proven deadline is passed over. -/
theorem firstIncomplete_ends_proven :
    (firstIncomplete mainnetDeadlines (Table.insert ∅ 60 []) 3
      (newDeadlineInfo mainnetDeadlines 0 1 60)).isSome :=
  firstIncomplete_ends _ (Table.insert ∅ 60 []) (by decide)

/-! ## The generations -/

namespace ProveLemmas

open ProveHandler

section Generations

variable {p : DeadlineParams} {s s' : ProveHandler}

/-- A generation that runs without having been aborted is the current one, and a deadline is only
started after the generations for it have reported. -/
structure Tracked (s : ProveHandler) : Prop where
  current : ∀ (i : Nat) (g : Generation), s.generations[i]? = some g → g.live = true →
    s.current = some i
  notTwice : ∀ (i j : Nat) (g g' : Generation), i < j → s.generations[i]? = some g →
    s.generations[j]? = some g' → g.di.open = g'.di.open → g.done = true

section

variable (h : Tracked s)
include h

/-- A generation ends; the handler may forget it, but no other one. -/
theorem tracked_modify {id : Nat} {f : Generation → Generation}
    (hgen : s'.generations = s.generations.modify id f)
    (hf : ∀ g, (f g).live = false ∧ (f g).di = g.di ∧ (g.done = true → (f g).done = true))
    (hcur : ∀ i, i ≠ id → s.current = some i → s'.current = some i) : Tracked s' := by
  have hold : ∀ (i : Nat) (g : Generation), s'.generations[i]? = some g → ∃ g₀,
      s.generations[i]? = some g₀ ∧ g.di = g₀.di ∧ (g₀.done = true → g.done = true) ∧
        (g.live = true → i ≠ id ∧ g₀.live = true) := by
    intro i g hi
    rw [hgen, getElem?_modify] at hi
    obtain ⟨g₀, hg₀, rfl⟩ := map_eq_some_iff.mp hi
    refine ⟨g₀, hg₀, ?_⟩
    by_cases hid : id = i
    · rw [if_pos hid, (hf g₀).1]
      exact ⟨(hf g₀).2.1, (hf g₀).2.2, nofun⟩
    · rw [if_neg hid]
      exact ⟨rfl, fun hdone => hdone, fun hlive => ⟨Ne.symm hid, hlive⟩⟩
  refine ⟨fun i g hi hlive => ?_, fun i j g g' hlt hi hj hopen => ?_⟩
  · obtain ⟨g₀, hg₀, -, -, hlive₀⟩ := hold i g hi
    obtain ⟨hne, hlive⟩ := hlive₀ hlive
    exact hcur i hne (h.current i g₀ hg₀ hlive)
  · obtain ⟨g₀, hg₀, hdi, hdone, -⟩ := hold i g hi
    obtain ⟨g₀', hg₀', hdi', -⟩ := hold j g' hj
    rw [hdi, hdi'] at hopen
    exact hdone (h.notTwice i j g₀ g₀' hlt hg₀ hg₀' hopen)

theorem tracked_abort {id : Nat} (hcur : ∀ i, i ≠ id → s.current = some i → s'.current = some i)
    (hgen : s'.generations = (s.abort id).generations) : Tracked s' :=
  tracked_modify h hgen (fun _ => ⟨rfl, rfl, fun hdone => hdone⟩) hcur

theorem tracked_expire (height : Int) : Tracked (s.expire height) := by
  unfold expire
  split
  · exact h
  · next id hcur =>
    split
    · exact h
    · split
      · exact tracked_abort h (fun i hne hi => absurd (some.inj (hi.symm.trans hcur)) hne) rfl
      · exact h

theorem tracked_start (hcur : s.current = none) {di : Info} (hnew : ∀ g ∈ s.generations,
    g.done = false → g.aborted = true → g.di.open ≠ di.open) : Tracked (s.start di) := by
  -- a generation from before is not live, as it would be the current one
  have hold : ∀ (i : Nat) (g : Generation), s.generations[i]? = some g → g.live = false := by
    refine fun i g hi => Bool.eq_false_iff.mpr fun hlive => ?_
    cases hcur.symm.trans (h.current i g hi hlive)
  refine ⟨fun i g hi hlive => ?_, fun i j g g' hlt hi hj hopen => ?_⟩
  · rcases getElem?_concat_cases hi with hi | ⟨rfl, -⟩
    · cases (hold i g hi).symm.trans hlive
    · rfl
  · have hlen : i < s.generations.length := by
      have hj := (List.getElem?_eq_some_iff.mp hj).1
      rw [start, length_append, length_singleton] at hj
      omega
    rw [start, getElem?_append_left hlen] at hi
    rcases getElem?_concat_cases hj with hj | ⟨-, rfl⟩
    · exact h.notTwice i j g g' hlt hi hj hopen
    · by_contra hdone
      have hlive := hold i g hi
      rw [Generation.live, Bool.eq_false_of_not_eq_true hdone, Bool.not_false, Bool.and_true,
        Bool.not_eq_false'] at hlive
      exact hnew g (mem_of_getElem? hi) (Bool.eq_false_of_not_eq_true hdone) hlive hopen

omit h in
/-- A generation after `expire`, and what it was before. -/
theorem mem_expire {height : Int} {g : Generation} (hg : g ∈ (s.expire height).generations) :
    ∃ g₀ ∈ s.generations, g.di = g₀.di ∧ g.done = g₀.done ∧
      (g.aborted = true → g₀.aborted = true ∨ g₀.di.close ≤ height) := by
  unfold expire at hg
  split at hg
  · exact ⟨g, hg, rfl, rfl, .inl⟩
  split at hg
  · exact ⟨g, hg, rfl, rfl, .inl⟩
  next g₁ hg₁ =>
  split at hg
  · next hclose =>
    rcases mem_modify hg with hg | ⟨g₀, hg₀, rfl⟩
    · exact ⟨g, hg, rfl, rfl, .inl⟩
    · cases hg₁.symm.trans hg₀
      exact ⟨g₁, mem_of_getElem? hg₁, rfl, rfl, fun _ => .inr hclose⟩
  · exact ⟨g, hg, rfl, rfl, .inl⟩

theorem tracked_headChange {height : Int} {di : Info}
    (hguard : s.KeepsApart p (.headChange height di))
    (hstep : s.processHeadChange p height di = some s') : Tracked s' := by
  have hexp : Tracked (s.expire height) := tracked_expire h height
  unfold processHeadChange at hstep
  dsimp only at hstep
  split at hstep
  · cases hstep
    exact hexp
  · next hcur =>
    split at hstep
    · cases hstep
    next di' hfirst =>
    cases hstep
    split
    · exact hexp
    · refine tracked_start hexp hcur fun g hg hdone haborted hopen => ?_
      obtain ⟨g₀, hg₀, hdi, hdone₀, haborted₀⟩ := mem_expire hg
      have hlt := hguard.2 g₀ hg₀ (hdone₀ ▸ hdone) (haborted₀ haborted)
      have hle := open_le_of_firstIncomplete hguard.1 hfirst
      rw [hdi] at hopen
      omega

theorem tracked_postResult {id : Nat} {result : Option Posts}
    (hguard : s.KeepsApart p (.postResult id result))
    (hstep : s.processPostResult id result = some s') : Tracked s' := by
  have hdone : ∀ g : Generation, ({ g with done := true } : Generation).live = false ∧
      g.di = g.di ∧ (g.done = true → true = true) :=
    fun g => ⟨Bool.and_false _, rfl, fun _ => rfl⟩
  unfold processPostResult at hstep
  split at hstep
  · cases hstep
  split at hstep
  · cases hstep
  cases result with
  | none =>
    cases hstep
    refine tracked_modify h rfl hdone fun i hne hi => ?_
    rw [if_neg fun hid => hne (some.inj (hi.symm.trans hid))]
    exact hi
  | some posts =>
    cases hstep
    refine tracked_modify h rfl hdone fun i hne hi => ?_
    -- the handler forgets its current generation, which is this one or none
    rcases hguard with hnone | hid
    · rw [hnone] at hi
      cases hi
    · exact absurd (some.inj (hi.symm.trans hid)) hne

theorem tracked_step {e : ProveEvent} (hguard : s.KeepsApart p e)
    (hstep : s.step p e = some s') : Tracked s' := by
  unfold step at hstep
  split at hstep
  · cases hstep
  cases e with
  | headChange _ di => exact tracked_headChange h hguard hstep
  | postResult id result => exact tracked_postResult h hguard hstep
  | shutdown =>
    cases hstep
    unfold shutdown
    split
    · exact ⟨h.current, h.notTwice⟩
    · exact tracked_abort h (fun _ _ hi => hi) rfl

end

end Generations

end ProveLemmas

open ProveLemmas in
/-- In a run that keeps the generations apart, at every moment at most one generation that was not
aborted is running, and no deadline is started while a generation for it is running. -/
theorem proves_once_of_apart (p : DeadlineParams) (events : List ProveEvent)
    (states : List ProveHandler) (hrun : trace (ProveHandler.step p) newProver events = some states)
    (hapart : Guarded (ProveHandler.step p) (ProveHandler.KeepsApart p) newProver events) :
    ∀ s ∈ states, s.ProvesOnce := by
  have hall : ∀ s ∈ states, Tracked s :=
    trace_forall_guarded (fun _ _ _ h hguard hstep => tracked_step h hguard hstep)
      ⟨fun _ _ hi => (by cases hi), fun _ _ _ _ _ hi => (by cases hi)⟩ hrun hapart
  intro s hs
  have h := hall s hs
  exact ⟨fun i j g g' hi hj hg hg' =>
    some.inj ((h.current i g hi hg).symm.trans (h.current j g' hj hg')), h.notTwice⟩

/-- A head at `height`, in the deadline `index` of the first proving period. -/
def headIn (index : Nat) (height : Int) : ProveEvent :=
  .headChange height (newDeadlineInfo mainnetDeadlines 0 index height)

/-- The generation of deadline 0 is aborted and fails late, the one of deadline 1 succeeds. -/
theorem proves_once_of_apart_late_failure : ∃ states,
    trace (ProveHandler.step mainnetDeadlines) newProver
        [headIn 0 10, headIn 1 60, .postResult 0 none, .postResult 1 (some [7]), headIn 1 101] =
      some states ∧ ∀ s ∈ states, s.ProvesOnce :=
  exists_trace_of (by decide) fun states h =>
    proves_once_of_apart mainnetDeadlines _ states h (by decide)

/-- The generation of deadline 0 is aborted and succeeds late, while the one of deadline 1 is
running. The handler forgets the latter, and the next head change starts deadline 1 again. -/
theorem deadline_started_twice : ∃ states,
    trace (ProveHandler.step mainnetDeadlines) newProver
        [headIn 0 10, headIn 1 60, .postResult 0 (some [7]), headIn 1 61] = some states ∧
      ∃ s ∈ states, ∃ g g', s.generations[1]? = some g ∧ s.generations[2]? = some g' ∧
        g.live = true ∧ g'.live = true ∧ g.di.open = g'.di.open := by
  refine exists_trace_imp (p := fun states => ∃ s ∈ states, s.generations =
    [⟨newDeadlineInfo mainnetDeadlines 0 0 10, true, true⟩,
      ⟨newDeadlineInfo mainnetDeadlines 0 1 60, false, false⟩,
      ⟨newDeadlineInfo mainnetDeadlines 0 1 61, false, false⟩]) (by decide) ?_
  rintro states - ⟨s, hs, hgens⟩
  refine ⟨s, hs, ⟨newDeadlineInfo mainnetDeadlines 0 1 60, false, false⟩,
    ⟨newDeadlineInfo mainnetDeadlines 0 1 61, false, false⟩, ?_, ?_, rfl, rfl, rfl⟩
  · rw [hgens]
    rfl
  · rw [hgens]
    rfl

end OpenDsn.Wdpost
