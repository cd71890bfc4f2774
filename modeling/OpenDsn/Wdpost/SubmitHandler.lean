import OpenDsn.Wdpost.ProveHandler

/-!
# The submit handler of WindowPoSt

`storage/wdpost/wdpost_changehandler.go`, `submitHandler`: every window that the chain came
through is a small state machine. A window whose submission is aborted is replaced by a new one,
and the result of the aborted submission, which may come much later, goes to the old one.

Windows are pointers in the source, so `windows` holds all that were ever made and `postWindows`
the places of those in the map. `submissions` holds every call of `startSubmitPoST`.

* `submits_once`: whatever the order of head changes, proofs and results, a submission of a
  window starts only between its opening and its close, while no other one of it is in flight
  and none has succeeded since the chain was last reverted below its opening.
-/

namespace OpenDsn.Wdpost

open Lib List Option

/-- `SubmitConfidence`. -/
def submitConfidence : Int := 4

inductive SubmitState
  | start
  | submitting
  | complete
deriving DecidableEq

/-- `postWindow`; `abort` is the submission that it cancels. -/
structure PostWindow where
  di : Info
  submitState : SubmitState
  abort : Option Nat

/-- A call of `startSubmitPoST`. -/
structure Submission where
  /-- The place of the window that gets the result. -/
  pw : Nat
  di : Info
  /-- The height of the head at which it was started. -/
  height : Int
  /-- It was cancelled before its result came. -/
  aborted : Bool
  /-- Whether it succeeded, once its result has come. -/
  result : Option Bool
  /-- Since its result came, the chain was reverted below the opening of its window. -/
  reverted : Bool

namespace Submission

def inFlight (x : Submission) : Bool := !x.aborted && x.result.isNone

/-- It has succeeded since the chain was last reverted below the opening of its window. -/
def completed (x : Submission) : Bool := !x.aborted && x.result == some true && !x.reverted

/-- The chain is reverted to a head at `revert`. -/
def revertTo (revert : Option Int) (x : Submission) : Submission :=
  if revert.any (· < x.di.open) && x.result.isSome then { x with reverted := true } else x

def cancel (x : Submission) : Submission :=
  if x.result.isNone then { x with aborted := true } else x

end Submission

structure SubmitHandler where
  posts : PostsCache
  postWindows : Table Int Nat
  windows : List PostWindow
  submissions : List Submission
  /-- The height of `currentTS`. -/
  currentTS : Option Int
  stopped : Bool

inductive SubmitEvent
  /-- A head change, and the order in which it goes through the windows. -/
  | headChange (revert : Option Int) (advance : Int) (di : Info) (order : Arrangement)
  /-- The prove handler adds proofs to the cache. -/
  | postsAdded (opened : Int) (posts : Posts)
  /-- The handler takes them from the channel. -/
  | postReady (opened : Int)
  | submitResult (id : Nat) (ok : Bool)
  | shutdown

namespace SubmitHandler

variable (s : SubmitHandler)

def setWindow (k : Nat) (pw : PostWindow) : SubmitHandler :=
  { s with windows := s.windows.set k pw }

/-- Makes a window and puts it into the map. -/
def addWindow (di : Info) : SubmitHandler :=
  { s with
    windows := s.windows ++ [⟨di, .start, none⟩]
    postWindows := s.postWindows.insert di.open s.windows.length }

def abort (id : Nat) : SubmitHandler :=
  { s with submissions := s.submissions.modify id Submission.cancel }

/-- `startSubmitPoST`, with the new state of the window. -/
def startSubmit (advance : Int) (k : Nat) (pw : PostWindow) : SubmitHandler :=
  { s with
    windows := s.windows.set k
      { pw with submitState := .submitting, abort := some s.submissions.length }
    submissions := s.submissions ++ [⟨k, pw.di, advance, false, none, false⟩] }

def submitIfReady (advance : Int) (k : Nat) : SubmitHandler :=
  match s.windows[k]? with
  | none => s
  | some pw =>
      if advance ≥ pw.di.close then s
      else if pw.submitState ≠ .start then s
      else if advance < pw.di.open + submitConfidence then s
      else
        match s.posts.get? pw.di.open with
        | none => s
        | some posts =>
            if posts.length = 0 then s.setWindow k { pw with submitState := .complete }
            else s.startSubmit advance k pw

def processHeadChangeForPW (revert : Option Int) (advance : Int) (k : Nat) : SubmitHandler :=
  match s.windows[k]? with
  | none => s
  | some pw =>
      let revertedToPrevDL := revert.any (· < pw.di.open)
      let expired := decide (advance ≥ pw.di.close)
      if pw.submitState = .submitting ∧ (revertedToPrevDL || expired) then
        match pw.abort with
        | none => s.submitIfReady advance k
        | some id => ((s.addWindow pw.di).abort id).submitIfReady advance s.windows.length
      else if pw.submitState = .complete ∧ revertedToPrevDL then
        (s.setWindow k { pw with submitState := .start }).submitIfReady advance k
      else s.submitIfReady advance k

/-- One round of the loop over the windows. -/
def visit (revert : Option Int) (advance : Int) (s : SubmitHandler) (opened : Int) :
    SubmitHandler :=
  match s.postWindows.get? opened with
  | none => s
  | some k => s.processHeadChangeForPW revert advance k

/-- Starts to track the window of the head. -/
def track (di : Info) : SubmitHandler :=
  match s.postWindows.get? di.open with
  | some _ => s
  | none => s.addWindow di

def processHeadChange (revert : Option Int) (advance : Int) (di : Info) (order : Arrangement) :
    SubmitHandler :=
  let s := { s with
    currentTS := some advance
    submissions := s.submissions.map (Submission.revertTo revert) }
  let s := s.track di
  (order.arrange s.postWindows.keys).foldl (visit revert advance) s

/-- `processPostReady`; without a tipset the source would dereference nil. -/
def processPostReady (opened : Int) : Option SubmitHandler :=
  match s.postWindows.get? opened with
  | none => some s
  | some k => s.currentTS.map fun advance => s.submitIfReady advance k

/-- `processSubmitResult`, for a submission that has not reported before. -/
def processSubmitResult (id : Nat) (ok : Bool) : Option SubmitHandler :=
  match s.submissions[id]? with
  | none => none
  | some x =>
      if x.result.isSome then none
      else some { s with
        submissions := s.submissions.set id { x with result := some ok }
        windows := s.windows.modify x.pw fun pw =>
          { pw with submitState := if ok then .complete else .start } }

/-- The deferred function of `run`. -/
def shutdown : SubmitHandler :=
  let aborts := s.postWindows.values.filterMap fun k => s.windows[k]?.bind PostWindow.abort
  { aborts.foldl abort s with stopped := true }

/-- One round of `run`. -/
def step (e : SubmitEvent) : Option SubmitHandler :=
  if s.stopped then none
  else
    match e with
    | .headChange revert advance di order => some (s.processHeadChange revert advance di order)
    | .postsAdded opened posts => some { s with posts := s.posts.insert opened posts }
    | .postReady opened => s.processPostReady opened
    | .submitResult id ok => s.processSubmitResult id ok
    | .shutdown => some s.shutdown

end SubmitHandler

def newSubmitter : SubmitHandler := ⟨∅, ∅, [], [], none, false⟩

/-- Every submission was started between the opening of its window and the close, when no earlier
one of the window was in flight and none had succeeded since the last revert below its opening. -/
structure SubmitHandler.SubmitsOnce (s : SubmitHandler) : Prop where
  inWindow : ∀ x ∈ s.submissions, x.di.open + submitConfidence ≤ x.height ∧ x.height < x.di.close
  alone : ∀ (i j : Nat) (x y : Submission), i < j → s.submissions[i]? = some x →
    s.submissions[j]? = some y → x.di.open = y.di.open →
    x.inFlight = false ∧ x.completed = false

namespace SubmitLemmas

open ProveLemmas SubmitHandler Submission

variable {s s' : SubmitHandler} {x : Submission}

/-! ## Submissions -/

/-- The submissions are the same, except that some no longer stand in the way of another. -/
def Eased (xs ys : List Submission) : Prop :=
  ∀ (i : Nat) (y : Submission), ys[i]? = some y → ∃ x, xs[i]? = some x ∧ y.pw = x.pw ∧
    y.di = x.di ∧ y.height = x.height ∧ y.result = x.result ∧
    (x.aborted = true → y.aborted = true) ∧ (x.reverted = true → y.reverted = true)

/-- Reverting the chain changes nothing of a submission but whether it was reverted. -/
theorem revertTo_eq (revert : Option Int) (x : Submission) : ∃ reverted,
    x.revertTo revert = { x with reverted } ∧ (x.reverted = true → reverted = true) := by
  unfold revertTo
  split
  · exact ⟨true, rfl, fun _ => rfl⟩
  · exact ⟨x.reverted, rfl, id⟩

theorem eased_map {xs : List Submission} (revert : Option Int) :
    Eased xs (xs.map (Submission.revertTo revert)) := by
  intro i y hy
  rw [getElem?_map] at hy
  obtain ⟨x, hx, rfl⟩ := map_eq_some_iff.mp hy
  obtain ⟨reverted, heq, hkeep⟩ := revertTo_eq revert x
  rw [heq]
  exact ⟨x, hx, rfl, rfl, rfl, rfl, id, hkeep⟩

theorem eased_cancel {xs : List Submission} (id : Nat) :
    Eased xs (xs.modify id Submission.cancel) := by
  intro i y hy
  rw [getElem?_modify] at hy
  obtain ⟨x, hx, rfl⟩ := map_eq_some_iff.mp hy
  refine ⟨x, hx, ?_⟩
  split
  · unfold cancel
    split
    · exact ⟨rfl, rfl, rfl, rfl, fun _ => rfl, fun h => h⟩
    · exact ⟨rfl, rfl, rfl, rfl, fun h => h, fun h => h⟩
  · exact ⟨rfl, rfl, rfl, rfl, fun h => h, fun h => h⟩

theorem inFlight_eq_true : x.inFlight = true ↔ x.aborted = false ∧ x.result = none := by
  simp [inFlight]

theorem completed_eq_true :
    x.completed = true ↔ x.aborted = false ∧ x.result = some true ∧ x.reverted = false := by
  simp [completed, and_assoc]

theorem eq_false_of_imp {a b : Bool} (h : a = true → b = true) (hb : b = false) : a = false :=
  Bool.eq_false_iff.mpr fun ha => Bool.eq_false_iff.mp hb (h ha)

theorem inFlight_of_eased {y : Submission} (hresult : y.result = x.result)
    (haborted : x.aborted = true → y.aborted = true) (h : y.inFlight = true) :
    x.inFlight = true := by
  obtain ⟨ha, hr⟩ := inFlight_eq_true.mp h
  exact inFlight_eq_true.mpr ⟨eq_false_of_imp haborted ha, hresult ▸ hr⟩

theorem completed_of_eased {y : Submission} (hresult : y.result = x.result)
    (haborted : x.aborted = true → y.aborted = true)
    (hreverted : x.reverted = true → y.reverted = true) (h : y.completed = true) :
    x.completed = true := by
  obtain ⟨ha, hr, hv⟩ := completed_eq_true.mp h
  exact completed_eq_true.mpr
    ⟨eq_false_of_imp haborted ha, hresult ▸ hr, eq_false_of_imp hreverted hv⟩

theorem submitsOnce_of_eased (h : s.SubmitsOnce) (he : Eased s.submissions s'.submissions) :
    s'.SubmitsOnce where
  inWindow y hy := by
    obtain ⟨i, hi⟩ := mem_iff_getElem?.mp hy
    obtain ⟨x, hx, -, hdi, hheight, -⟩ := he i y hi
    rw [hdi, hheight]
    exact h.inWindow x (mem_of_getElem? hx)
  alone i j y z hlt hy hz hopen := by
    obtain ⟨x, hx, -, hdi, -, hresult, haborted, hreverted⟩ := he i y hy
    obtain ⟨x', hx', -, hdi', -⟩ := he j z hz
    rw [hdi, hdi'] at hopen
    obtain ⟨hfly, hdone⟩ := h.alone i j x x' hlt hx hx' hopen
    exact ⟨eq_false_of_imp (inFlight_of_eased hresult haborted) hfly,
      eq_false_of_imp (completed_of_eased hresult haborted hreverted) hdone⟩

/-! ## Windows and their submissions -/

/-- What the map, the windows and the submissions say about one another. A window that opens in
an epoch of `out` is about to be replaced. -/
structure InvBut (out : Int → Prop) (s : SubmitHandler) : Prop where
  /-- A window stands at the epoch in which it opens. -/
  keyed : ∀ (o : Int) (k : Nat), s.postWindows.get? o = some k →
    ∃ pw, s.windows[k]? = some pw ∧ pw.di.open = o
  /-- A submission in flight is that of a window in the map, which can abort it. -/
  flying : ∀ (i : Nat) (x : Submission), s.submissions[i]? = some x → x.inFlight = true →
    s.postWindows.get? x.di.open = some x.pw ∧
      ∃ pw, s.windows[x.pw]? = some pw ∧ pw.submitState = .submitting ∧ pw.abort = some i
  /-- An aborted one will report to a window that was replaced. -/
  late : ∀ x ∈ s.submissions, x.aborted = true → x.result = none →
    ∀ o, ¬out o → s.postWindows.get? o ≠ some x.pw
  /-- The window of a submission that succeeded is complete. -/
  settled : ∀ x ∈ s.submissions, x.completed = true →
    ∃ k pw, s.postWindows.get? x.di.open = some k ∧ s.windows[k]? = some pw ∧
      pw.submitState = .complete
  aborts : ∀ (k : Nat) (pw : PostWindow) (id : Nat), s.windows[k]? = some pw →
    pw.abort = some id → ∃ x, s.submissions[id]? = some x ∧ x.pw = k
  made : ∀ x ∈ s.submissions, x.pw < s.windows.length

abbrev Inv (s : SubmitHandler) : Prop := InvBut (fun _ => False) s

theorem getElem?_set_of_some {α : Type} {l : List α} {k : Nat} {a b : α} (h : l[k]? = some a)
    (j : Nat) : (l.set k b)[j]? = if k = j then some b else l[j]? := by
  rw [List.getElem?_set, if_pos (List.getElem?_eq_some_iff.mp h).1]

/-- Aborting and reverting submissions leaves everything but what is said of the aborted ones. -/
theorem inv_of_eased {out out' : Int → Prop} (h : InvBut out s)
    (hwindows : s'.windows = s.windows) (hmap : s'.postWindows = s.postWindows)
    (he : Eased s.submissions s'.submissions)
    (hlength : s'.submissions.length = s.submissions.length)
    (hlate : ∀ y ∈ s'.submissions, y.aborted = true → y.result = none →
      ∀ o, ¬out' o → s.postWindows.get? o ≠ some y.pw) : InvBut out' s' where
  keyed := by
    rw [hwindows, hmap]
    exact h.keyed
  flying i y hy hfly := by
    obtain ⟨x, hx, hpw, hdi, -, hresult, haborted, -⟩ := he i y hy
    rw [hwindows, hmap, hpw, hdi]
    exact h.flying i x hx (inFlight_of_eased hresult haborted hfly)
  late := by
    rw [hmap]
    exact hlate
  settled y hy hcompleted := by
    obtain ⟨i, hi⟩ := List.mem_iff_getElem?.mp hy
    obtain ⟨x, hx, -, hdi, -, hresult, haborted, hreverted⟩ := he i y hi
    rw [hwindows, hmap, hdi]
    exact h.settled x (List.mem_of_getElem? hx)
      (completed_of_eased hresult haborted hreverted hcompleted)
  aborts j pw id hget habort := by
    rw [hwindows] at hget
    obtain ⟨x, hx, hxpw⟩ := h.aborts j pw id hget habort
    have hid : id < s'.submissions.length := by
      rw [hlength]
      exact (List.getElem?_eq_some_iff.mp hx).1
    have hy := List.getElem?_eq_getElem hid
    obtain ⟨x', hx', hypw, -⟩ := he id _ hy
    cases hx.symm.trans hx'
    exact ⟨_, hy, hypw.trans hxpw⟩
  made y hy := by
    obtain ⟨i, hi⟩ := List.mem_iff_getElem?.mp hy
    obtain ⟨x, hx, hypw, -⟩ := he i y hi
    rw [hwindows, hypw]
    exact h.made x (List.mem_of_getElem? hx)

section Window

variable {out : Int → Prop} {k : Nat} {pw : PostWindow}

section

variable (hpw : s.windows[k]? = some pw)
include hpw

/-- Other windows stay where they are when one is set. -/
theorem keyed_set (h : Inv s) {w : PostWindow}
    (hw : w.di = pw.di) (o : Int) (j : Nat) (hget : s.postWindows.get? o = some j) :
    ∃ pw', (s.windows.set k w)[j]? = some pw' ∧ pw'.di.open = o := by
  obtain ⟨pw', hpw', hopen⟩ := h.keyed o j hget
  rw [getElem?_set_of_some hpw]
  split
  · next hkj =>
    subst hkj
    cases hpw.symm.trans hpw'
    exact ⟨w, rfl, hw ▸ hopen⟩
  · exact ⟨pw', hpw', hopen⟩

theorem set_other {w pw' : PostWindow} {j : Nat}
    (hpw' : s.windows[j]? = some pw') (hne : pw.submitState ≠ pw'.submitState) :
    (s.windows.set k w)[j]? = some pw' := by
  rw [getElem?_set_of_some hpw, if_neg]
  · exact hpw'
  · rintro rfl
    cases hpw.symm.trans hpw'
    exact hne rfl

/-- A window that is not submitting goes to another state. -/
theorem inv_setWindow (h : Inv s) {st : SubmitState} (hstate : pw.submitState ≠ .submitting)
    (hdone : ∀ x ∈ s.submissions, x.completed = true → x.di.open = pw.di.open → st = .complete) :
    Inv (s.setWindow k { pw with submitState := st }) where
  keyed := keyed_set hpw h rfl
  flying i x hx hfly := by
    obtain ⟨hget, pw', hpw', hsub, habort⟩ := h.flying i x hx hfly
    exact ⟨hget, pw', set_other hpw hpw' (hsub ▸ hstate), hsub, habort⟩
  late := h.late
  settled x hx hcompleted := by
    obtain ⟨j, pw', hget, hpw', hcomplete⟩ := h.settled x hx hcompleted
    show ∃ j pw', _ ∧ (s.windows.set k _)[j]? = some pw' ∧ _
    by_cases hkj : k = j
    · subst hkj
      cases hpw.symm.trans hpw'
      obtain ⟨pw'', hpw'', hopen⟩ := h.keyed _ k hget
      cases hpw.symm.trans hpw''
      exact ⟨k, _, hget, by rw [getElem?_set_of_some hpw, if_pos rfl],
        hdone x hx hcompleted hopen.symm⟩
    · exact ⟨j, pw', hget, by rw [getElem?_set_of_some hpw, if_neg hkj]; exact hpw', hcomplete⟩
  aborts j pw' id hget habort := by
    rcases getElem?_set_cases hget with ⟨rfl, rfl⟩ | ⟨-, hold⟩
    · exact h.aborts j pw id hpw habort
    · exact h.aborts j pw' id hold habort
  made x hx := by
    show x.pw < (s.windows.set k _).length
    rw [length_set]
    exact h.made x hx

/-- The submission of a window is aborted, which is about to be replaced. -/
theorem inv_abort (h : Inv s) {id : Nat}
    (habort : pw.abort = some id) : InvBut (· = pw.di.open) (s.abort id) := by
  refine inv_of_eased h rfl rfl (eased_cancel id) (length_modify _ _ _)
    fun y hy haborted hresult o hout hget => ?_
  obtain ⟨i, hi⟩ := mem_iff_getElem?.mp hy
  obtain ⟨x, hx, hypw, -, -, hres, -⟩ := eased_cancel id i y hi
  rw [hypw] at hget
  by_cases hxa : x.aborted = true
  · exact h.late x (mem_of_getElem? hx) hxa (hres ▸ hresult) o not_false hget
  · -- it is the one that was aborted just now, whose window is about to be replaced
    have hid : id = i := by
      by_contra hne
      have hy' : (s.submissions.modify id cancel)[i]? = some y := hi
      rw [getElem?_modify, hx] at hy'
      have hyx : (if id = i then x.cancel else x) = y := some.inj hy'
      rw [← hyx, if_neg hne] at haborted
      exact hxa haborted
    subst hid
    obtain ⟨x', hx', hk⟩ := h.aborts k pw id hpw habort
    cases hx.symm.trans hx'
    obtain ⟨pw', hpw', hopen⟩ := h.keyed o x.pw hget
    rw [hk] at hpw'
    cases hpw.symm.trans hpw'
    exact hout hopen.symm

variable (hmap : s.postWindows.get? pw.di.open = some k)
include hmap

/-- No submission of a window that is not submitting is in flight. -/
theorem InvBut.not_inFlight (h : InvBut out s) (hstate : pw.submitState ≠ .submitting)
    (hx : x ∈ s.submissions) (hopen : x.di.open = pw.di.open) : x.inFlight = false := by
  refine Bool.eq_false_iff.mpr fun hfly => ?_
  obtain ⟨i, hi⟩ := mem_iff_getElem?.mp hx
  obtain ⟨hget, pw', hpw', hsub, -⟩ := h.flying i x hi hfly
  rw [hopen, hmap] at hget
  cases hget
  cases hpw.symm.trans hpw'
  exact hstate hsub

/-- Only the window of a submission that succeeded is complete. -/
theorem InvBut.not_completed (h : InvBut out s) (hstate : pw.submitState ≠ .complete)
    (hx : x ∈ s.submissions) (hopen : x.di.open = pw.di.open) : x.completed = false := by
  refine Bool.eq_false_iff.mpr fun hdone => ?_
  obtain ⟨k', pw', hget, hpw', hcomplete⟩ := h.settled x hx hdone
  rw [hopen, hmap] at hget
  cases hget
  cases hpw.symm.trans hpw'
  exact hstate hcomplete

/-- A window in its first state starts a submission. -/
theorem inv_startSubmit (h : Inv s) (advance : Int)
    (hstate : pw.submitState = .start) : Inv (s.startSubmit advance k pw) where
  keyed := keyed_set hpw h rfl
  flying i x hx hfly := by
    rcases getElem?_concat_cases hx with hold | ⟨rfl, rfl⟩
    · obtain ⟨hget, pw', hpw', hsub, habort⟩ := h.flying i x hold hfly
      exact ⟨hget, pw', set_other hpw hpw' (by rw [hstate, hsub]; decide), hsub, habort⟩
    · exact ⟨hmap, _, (getElem?_set_of_some hpw k).trans (if_pos rfl), rfl, rfl⟩
  late := forall_mem_snoc h.late fun haborted => by cases haborted
  settled := by
    refine forall_mem_snoc (fun x hx hcompleted => ?_) fun hcompleted => by cases hcompleted
    obtain ⟨j, pw', hget, hpw', hcomplete⟩ := h.settled x hx hcompleted
    exact ⟨j, pw', hget, set_other hpw hpw' (by rw [hstate, hcomplete]; decide), hcomplete⟩
  aborts j pw' id hget habort := by
    rcases getElem?_set_cases hget with ⟨rfl, rfl⟩ | ⟨-, hold⟩
    · cases habort
      exact ⟨_, List.getElem?_concat_length, rfl⟩
    · obtain ⟨x, hx, hxpw⟩ := h.aborts j pw' id hold habort
      exact ⟨x, getElem?_append_of_some hx, hxpw⟩
  made := by
    show ∀ x ∈ _, Submission.pw x < (s.windows.set k _).length
    rw [List.length_set]
    exact forall_mem_snoc h.made (List.getElem?_eq_some_iff.mp hpw).1

theorem once_startSubmit (h : Inv s) (ho : s.SubmitsOnce) {advance : Int}
    (hstate : pw.submitState = .start) (hopen : pw.di.open + submitConfidence ≤ advance)
    (hclose : advance < pw.di.close) : (s.startSubmit advance k pw).SubmitsOnce where
  inWindow := forall_mem_snoc ho.inWindow ⟨hopen, hclose⟩
  alone i j x y hlt hx hy hsame := by
    rcases getElem?_concat_cases hx with hx | ⟨rfl, rfl⟩
    · rcases getElem?_concat_cases hy with hy | ⟨rfl, rfl⟩
      · exact ho.alone i j x y hlt hx hy hsame
      · have hmem := List.mem_of_getElem? hx
        exact ⟨h.not_inFlight hpw hmap (by rw [hstate]; decide) hmem hsame,
          h.not_completed hpw hmap (by rw [hstate]; decide) hmem hsame⟩
    · -- nothing comes after the new submission
      have hj := (List.getElem?_eq_some_iff.mp hy).1
      rw [startSubmit, List.length_append, List.length_singleton] at hj
      exact absurd hlt (not_lt.mpr (Nat.le_of_lt_succ hj))

/-- After that no submission of the window is in flight. -/
theorem not_inFlight_abort (h : Inv s) {id : Nat} (habort : pw.abort = some id) {y : Submission}
    (hy : y ∈ (s.abort id).submissions) (hopen : y.di.open = pw.di.open) :
    y.inFlight = false := by
  refine Bool.eq_false_iff.mpr fun hfly => ?_
  obtain ⟨i, hi⟩ := mem_iff_getElem?.mp hy
  obtain ⟨x, hx, -, hdi, -, hresult, haborted, -⟩ := eased_cancel id i y hi
  obtain ⟨hget, pw', hpw', -, hid⟩ := h.flying i x hx (inFlight_of_eased hresult haborted hfly)
  rw [← hdi, hopen, hmap] at hget
  rw [← some.inj hget] at hpw'
  cases hpw.symm.trans hpw'
  cases habort.symm.trans hid
  have hy' : (s.submissions.modify id cancel)[id]? = some y := hi
  rw [getElem?_modify_eq, hx] at hy'
  cases hy'
  obtain ⟨ha, hr⟩ := inFlight_eq_true.mp hfly
  rw [cancel, if_pos (by rw [← hresult, hr]; rfl)] at ha
  cases ha

end

/-- A window is made for an epoch that has none, or whose window is about to be replaced. -/
theorem inv_addWindow {di : Info} (h : InvBut (· = di.open) s)
    (hfree : ∀ x ∈ s.submissions, x.di.open = di.open → x.inFlight = false ∧ x.completed = false) :
    Inv (s.addWindow di) where
  keyed := by
    refine Table.forall_insert ⟨_, getElem?_concat_length, rfl⟩ fun o j hold => ?_
    obtain ⟨pw', hpw', hopen⟩ := h.keyed o j hold
    exact ⟨pw', getElem?_append_of_some hpw', hopen⟩
  flying i x hx hfly := by
    obtain ⟨hget, pw', hpw', hrest⟩ := h.flying i x hx hfly
    refine ⟨?_, pw', getElem?_append_of_some hpw', hrest⟩
    show (s.postWindows.insert _ _).get? _ = _
    rw [Table.get?_insert, if_neg]
    · exact hget
    · intro ho
      rw [(hfree x (mem_of_getElem? hx) ho).1] at hfly
      cases hfly
  late x hx haborted hresult o _ := by
    show (s.postWindows.insert _ _).get? _ ≠ _
    rw [Table.get?_insert]
    split
    · intro heq
      exact absurd (h.made x hx) (by rw [← some.inj heq]; exact lt_irrefl _)
    · next ho => exact h.late x hx haborted hresult o ho
  settled x hx hcompleted := by
    obtain ⟨j, pw', hget, hpw', hcomplete⟩ := h.settled x hx hcompleted
    refine ⟨j, pw', ?_, getElem?_append_of_some hpw', hcomplete⟩
    show (s.postWindows.insert _ _).get? _ = _
    rw [Table.get?_insert, if_neg]
    · exact hget
    · intro ho
      rw [(hfree x hx ho).2] at hcompleted
      cases hcompleted
  aborts j pw' id hget habort := by
    rcases getElem?_concat_cases hget with hold | ⟨rfl, rfl⟩
    · exact h.aborts j pw' id hold habort
    · cases habort
  made x hx := by
    show x.pw < (s.windows ++ _).length
    rw [length_append]
    exact Nat.lt_add_right _ (h.made x hx)

end Window

/-! ## Head changes, proofs and results -/

/-- The state between two windows of a head change: what succeeded and still counts was not
reverted by it. -/
structure Sound (revert : Option Int) (s : SubmitHandler) : Prop where
  inv : Inv s
  once : s.SubmitsOnce
  kept : ∀ x ∈ s.submissions, x.completed = true → revert.any (· < x.di.open) = false

section HeadChange

variable {revert : Option Int} {advance : Int} {k : Nat} {pw : PostWindow}

section

variable (h : Sound revert s)
include h

section

variable (hpw : s.windows[k]? = some pw) (hmap : s.postWindows.get? pw.di.open = some k)
include hpw hmap

theorem sound_submitIfReady : Sound revert (s.submitIfReady advance k) := by
  unfold submitIfReady
  rw [hpw]
  dsimp only
  split_ifs with hclose hstate hopen
  · exact h
  · exact h
  · exact h
  · have hstart : pw.submitState = .start := not_not.mp hstate
    split
    · exact h
    · split
      · exact ⟨inv_setWindow hpw h.inv (by rw [hstart]; decide) fun _ _ _ _ => rfl,
          ⟨h.once.inWindow, h.once.alone⟩, h.kept⟩
      · refine ⟨inv_startSubmit hpw hmap h.inv advance hstart,
          once_startSubmit hpw hmap h.inv h.once hstart (not_lt.mp hopen)
            (not_le.mp hclose), ?_⟩
        exact forall_mem_snoc h.kept fun hcompleted => by cases hcompleted

theorem sound_replace {id : Nat} (hstate : pw.submitState = .submitting)
    (habort : pw.abort = some id) : Sound revert ((s.abort id).addWindow pw.di) where
  inv := by
    refine inv_addWindow (inv_abort hpw h.inv habort) fun y hy hopen => ?_
    refine ⟨not_inFlight_abort hpw hmap h.inv habort hy hopen, ?_⟩
    exact (inv_abort hpw h.inv habort).not_completed (s := s.abort id) hpw hmap
      (by rw [hstate]; decide) hy hopen
  once := submitsOnce_of_eased h.once (eased_cancel id)
  kept y hy hcompleted := by
    obtain ⟨i, hi⟩ := mem_iff_getElem?.mp hy
    obtain ⟨x, hx, -, hdi, -, hresult, haborted, hreverted⟩ := eased_cancel id i y hi
    rw [hdi]
    exact h.kept x (mem_of_getElem? hx)
      (completed_of_eased hresult haborted hreverted hcompleted)

theorem sound_processHeadChangeForPW :
    Sound revert (s.processHeadChangeForPW revert advance k) := by
  unfold processHeadChangeForPW
  rw [hpw]
  dsimp only
  split
  · next hsub =>
    split
    · exact sound_submitIfReady h hpw hmap
    · next id habort =>
      exact sound_submitIfReady (sound_replace h hpw hmap hsub.1 habort)
        getElem?_concat_length Table.get?_insert_self
  · split
    · next hdone =>
      have hreset : Sound revert (s.setWindow k { pw with submitState := .start }) := by
        refine ⟨inv_setWindow hpw h.inv (by rw [hdone.1]; decide) fun x hx hcompleted hopen => ?_,
          ⟨h.once.inWindow, h.once.alone⟩, h.kept⟩
        have hkept := h.kept x hx hcompleted
        rw [hopen, hdone.2] at hkept
        cases hkept
      have hset : (s.setWindow k { pw with submitState := .start }).windows[k]? =
          some { pw with submitState := .start } := by
        rw [setWindow, getElem?_set_of_some hpw, if_pos rfl]
      exact sound_submitIfReady hreset hset hmap
    · exact sound_submitIfReady h hpw hmap

end

theorem sound_visit (opened : Int) : Sound revert (s.visit revert advance opened) := by
  unfold visit
  split
  · exact h
  · next k hget =>
    obtain ⟨pw, hpw, rfl⟩ := h.inv.keyed opened k hget
    exact sound_processHeadChangeForPW h hpw hget

theorem sound_track (di : Info) : Sound revert (s.track di) := by
  unfold track
  split
  · exact h
  · next hnone =>
    refine ⟨inv_addWindow ?_ fun x hx hopen => ?_, ⟨h.once.inWindow, h.once.alone⟩, h.kept⟩
    · exact { h.inv with late := fun x hx ha hr o _ => h.inv.late x hx ha hr o not_false }
    · rw [← hopen] at hnone
      constructor
      · refine Bool.eq_false_iff.mpr fun hfly => ?_
        obtain ⟨i, hi⟩ := mem_iff_getElem?.mp hx
        cases hnone.symm.trans (h.inv.flying i x hi hfly).1
      · refine Bool.eq_false_iff.mpr fun hdone => ?_
        obtain ⟨_, _, hget, -⟩ := h.inv.settled x hx hdone
        cases hnone.symm.trans hget

end

/-- What the handler was told before is forgotten where the chain was reverted. -/
theorem sound_revertTo (h : Inv s) (ho : s.SubmitsOnce) :
    Sound revert { s with
      currentTS := some advance
      submissions := s.submissions.map (Submission.revertTo revert) } where
  inv := by
    refine inv_of_eased h rfl rfl (eased_map revert) (length_map _)
      fun y hy haborted hresult => ?_
    obtain ⟨x, hx, rfl⟩ := mem_map.mp hy
    obtain ⟨reverted, heq, -⟩ := revertTo_eq revert x
    rw [heq] at haborted hresult ⊢
    exact h.late x hx haborted hresult
  once := submitsOnce_of_eased ho (eased_map revert)
  kept y hy hcompleted := by
    obtain ⟨x, hx, rfl⟩ := mem_map.mp hy
    obtain ⟨-, hresult, hreverted⟩ := completed_eq_true.mp hcompleted
    obtain ⟨reverted, heq, -⟩ := revertTo_eq revert x
    rw [heq] at hresult ⊢
    refine Bool.eq_false_iff.mpr fun hany => ?_
    rw [revertTo, hany, hresult] at hreverted
    cases hreverted

end HeadChange

theorem sound_none (h : Inv s) (ho : s.SubmitsOnce) : Sound none s :=
  ⟨h, ho, fun _ _ _ => rfl⟩

theorem sound_processPostReady (h : Inv s) (ho : s.SubmitsOnce) {opened : Int}
    (hstep : s.processPostReady opened = some s') : Sound none s' := by
  unfold processPostReady at hstep
  split at hstep
  · cases hstep
    exact sound_none h ho
  · next k hget =>
    obtain ⟨advance, -, rfl⟩ := map_eq_some_iff.mp hstep
    obtain ⟨pw, hpw, rfl⟩ := h.keyed opened k hget
    exact sound_submitIfReady (sound_none h ho) hpw hget

section Result

variable {id : Nat} {ok : Bool}

/-- The handler after the result of a submission. -/
def reported (s : SubmitHandler) (id : Nat) (x : Submission) (ok : Bool) : SubmitHandler :=
  { s with
    submissions := s.submissions.set id { x with result := some ok }
    windows := s.windows.modify x.pw fun pw =>
      { pw with submitState := if ok then .complete else .start } }

theorem processSubmitResult_eq_some (h : s.processSubmitResult id ok = some s') :
    ∃ x, s.submissions[id]? = some x ∧ x.result = none ∧ s' = reported s id x ok := by
  unfold processSubmitResult at h
  split at h
  · cases h
  next x hx =>
  split at h
  · cases h
  next hresult =>
  cases h
  exact ⟨x, hx, not_isSome_iff_eq_none.mp hresult, rfl⟩

/-- A window gets the result only if its own submission reported. -/
theorem reported_windows {k : Nat} {pw : PostWindow} (hk : x.pw ≠ k)
    (hpw : s.windows[k]? = some pw) : (reported s id x ok).windows[k]? = some pw := by
  show (s.windows.modify x.pw _)[k]? = _
  rw [getElem?_modify, hpw]
  exact congrArg some (if_neg hk)

variable (hx : s.submissions[id]? = some x) (hresult : x.result = none)
include hx hresult

/-- A window of the map to which a submission has yet to report is submitting it. -/
theorem InvBut.reports (h : Inv s)
    {o : Int} {pw : PostWindow} (hget : s.postWindows.get? o = some x.pw)
    (hpw : s.windows[x.pw]? = some pw) : pw.submitState = .submitting ∧ pw.abort = some id := by
  have ha : x.aborted = false := Bool.eq_false_iff.mpr fun ha =>
    h.late x (mem_of_getElem? hx) ha hresult o not_false hget
  obtain ⟨-, pw', hpw', hsub, habort⟩ := h.flying id x hx (inFlight_eq_true.mpr ⟨ha, hresult⟩)
  cases hpw.symm.trans hpw'
  exact ⟨hsub, habort⟩

theorem inv_reported (h : Inv s) : Inv (reported s id x ok) where
  keyed o k hget := by
    obtain ⟨pw, hpw, hopen⟩ := h.keyed o k hget
    show ∃ pw', (s.windows.modify x.pw _)[k]? = some pw' ∧ _
    rw [getElem?_modify, hpw]
    refine ⟨_, rfl, ?_⟩
    split
    · exact hopen
    · exact hopen
  flying i y hy hfly := by
    rcases getElem?_set_cases hy with ⟨-, rfl⟩ | ⟨hne, hold⟩
    · cases (inFlight_eq_true.mp hfly).2
    · obtain ⟨hget, pw, hpw, hsub, habort⟩ := h.flying i y hold hfly
      refine ⟨hget, pw, reported_windows (fun hpws => ?_) hpw, hsub, habort⟩
      -- the window would have two submissions in flight
      rw [← hpws] at hget hpw
      have habort' := (h.reports hx hresult hget hpw).2
      exact hne (mem_unique habort habort')
  late := forall_mem_set h.late fun _ hnone => by cases hnone
  settled y hy hcompleted := by
    rcases mem_or_eq_of_mem_set hy with hold | rfl
    swap
    · obtain ⟨ha, hok, -⟩ := completed_eq_true.mp hcompleted
      obtain ⟨hget, pw, hpw, -⟩ := h.flying id x hx (inFlight_eq_true.mpr ⟨ha, hresult⟩)
      refine ⟨x.pw, { pw with submitState := .complete }, hget, ?_, rfl⟩
      show (s.windows.modify x.pw _)[x.pw]? = _
      rw [getElem?_modify, hpw, some.inj hok]
      exact congrArg some (if_pos rfl)
    · obtain ⟨k, pw, hget, hpw, hcomplete⟩ := h.settled y hold hcompleted
      refine ⟨k, pw, hget, reported_windows (fun hpws => ?_) hpw, hcomplete⟩
      subst hpws
      have hsub := (h.reports hx hresult hget hpw).1
      rw [hcomplete] at hsub
      cases hsub
  aborts k pw' i hget habort := by
    have hget' : (s.windows.modify x.pw _)[k]? = some pw' := hget
    rw [getElem?_modify] at hget'
    obtain ⟨pw, hpw, rfl⟩ := map_eq_some_iff.mp hget'
    have habort' : pw.abort = some i := by
      split at habort
      · exact habort
      · exact habort
    obtain ⟨y, hy, hypw⟩ := h.aborts k pw i hpw habort'
    show ∃ y, (s.submissions.set id _)[i]? = some y ∧ _
    rw [getElem?_set_of_some hx]
    split
    · next hid =>
      subst hid
      cases hx.symm.trans hy
      exact ⟨_, rfl, hypw⟩
    · exact ⟨y, hy, hypw⟩
  made := by
    show ∀ y ∈ _, Submission.pw y < (s.windows.modify x.pw _).length
    rw [length_modify]
    exact forall_mem_set h.made (h.made x (mem_of_getElem? hx))

theorem once_reported (ho : s.SubmitsOnce) : (reported s id x ok).SubmitsOnce where
  inWindow := forall_mem_set ho.inWindow (ho.inWindow x (mem_of_getElem? hx))
  alone i j y z hlt hy hz hopen := by
    -- the later submission has its window from before
    obtain ⟨z₀, hz₀, hdi⟩ : ∃ z₀, s.submissions[j]? = some z₀ ∧ z₀.di = z.di := by
      rcases getElem?_set_cases hz with ⟨rfl, rfl⟩ | ⟨-, hold⟩
      · exact ⟨x, hx, rfl⟩
      · exact ⟨z, hold, rfl⟩
    rw [← hdi] at hopen
    rcases getElem?_set_cases hy with ⟨rfl, rfl⟩ | ⟨-, hold⟩
    · -- the one that reported was not in flight when the later one was started, so was aborted
      have hfly := (ho.alone i j x z₀ hlt hx hz₀ hopen).1
      have haborted : x.aborted = true := by
        by_contra ha
        rw [inFlight_eq_true.mpr ⟨Bool.eq_false_of_not_eq_true ha, hresult⟩] at hfly
        cases hfly
      constructor
      · simp [inFlight]
      · simp [completed, haborted]
    · exact ho.alone i j y z₀ hlt hold hz₀ hopen

end Result

/-- What every event keeps; after `shutdown` there are none. -/
structure Kept (s : SubmitHandler) : Prop where
  once : s.SubmitsOnce
  inv : s.stopped = false → Inv s

theorem kept_of_sound {revert : Option Int} (h : Sound revert s) : Kept s :=
  ⟨h.once, fun _ => h.inv⟩

theorem kept_step {e : SubmitEvent} (h : Kept s) (hstep : s.step e = some s') : Kept s' := by
  unfold step at hstep
  split at hstep
  · cases hstep
  next hrunning =>
  have hinv : Inv s := h.inv (Bool.eq_false_of_not_eq_true hrunning)
  cases e with
  | headChange revert advance di order =>
    cases hstep
    -- the loop over the windows, in whatever order
    exact kept_of_sound (foldlRecOn _ _ (sound_track (sound_revertTo hinv h.once) di)
      fun _ hs opened _ => sound_visit hs opened)
  | postsAdded opened posts =>
    cases hstep
    exact ⟨⟨h.once.inWindow, h.once.alone⟩, fun _ => { hinv with }⟩
  | postReady opened => exact kept_of_sound (sound_processPostReady hinv h.once hstep)
  | submitResult id ok =>
    obtain ⟨x, hx, hresult, rfl⟩ := processSubmitResult_eq_some hstep
    exact ⟨once_reported hx hresult h.once, fun _ => inv_reported hx hresult hinv⟩
  | shutdown =>
    cases hstep
    have ho := foldlRecOn (motive := SubmitHandler.SubmitsOnce)
      (s.postWindows.values.filterMap fun k => s.windows[k]?.bind PostWindow.abort)
      SubmitHandler.abort h.once fun _ ho id _ => submitsOnce_of_eased ho (eased_cancel id)
    exact ⟨⟨ho.inWindow, ho.alone⟩, fun hrun => nomatch hrun⟩

theorem kept_newSubmitter : Kept newSubmitter where
  once :=
    { inWindow _ hx := nomatch hx
      alone _ _ _ _ _ hx := by cases hx }
  inv _ :=
    { keyed _ _ hget := by cases hget
      flying _ _ hx := by cases hx
      late _ hx := nomatch hx
      settled _ hx := nomatch hx
      aborts _ _ _ hget := by cases hget
      made _ hx := nomatch hx }

end SubmitLemmas

open SubmitLemmas in
/-- In every run of the submit handler, a submission of a window is started only when none of
that window that was not aborted is in flight, none has succeeded since the last revert below
its opening, and the head is at `SubmitConfidence` after the opening or later, before the close. -/
theorem submits_once (events : List SubmitEvent) (states : List SubmitHandler)
    (hrun : trace SubmitHandler.step newSubmitter events = some states) :
    ∀ s ∈ states, s.SubmitsOnce := by
  have hall : ∀ s ∈ states, Kept s :=
    trace_forall (fun _ _ _ => kept_step) kept_newSubmitter hrun
  exact fun s hs => (hall s hs).once

/-- A head in deadline 1 of the first proving period, which opens in epoch 60. -/
def submitHead (revert : Option Int) (advance : Int) : SubmitEvent :=
  .headChange revert advance (newDeadlineInfo mainnetDeadlines 0 1 advance) Arrangement.listed

/-- The chain is reverted below the opening twice: the first time the submission is aborted and
reports late, the second time it has succeeded. Each time the window is submitted again. -/
theorem submits_once_reverted : ∃ states,
    trace SubmitHandler.step newSubmitter
        [.postsAdded 60 [7], submitHead none 64, submitHead (some 50) 66, .submitResult 0 true,
          .submitResult 1 true, submitHead none 70, submitHead (some 55) 65] = some states ∧
      (∃ s ∈ states, s.submissions.map Submission.height = [64, 66, 65]) ∧
      ∀ s ∈ states, s.SubmitsOnce :=
  exists_trace_and (by decide) fun states h => submits_once _ states h

end OpenDsn.Wdpost
