import OpenDsn.Chain.Reorg

/-!
# The head change coalescer

`chain/store/coalescer.go`: a reorg notifee that holds head changes back and
delivers a merged one later. Pending reverts and applies are cancelled against
incoming applies and reverts by tipset key. The background goroutine decides
when to dispatch from timers; here the moments are arbitrary, so a run is any
list of incoming head changes and dispatches.

Result: `dispatched_eq_direct_paths`. On a block tree, what the notifee gets at
each dispatch is the direct head change from the head at the previous dispatch
to the head at this one.
-/

namespace OpenDsn.Chain

open Lib BlockTree List

/-- The pending head change of a coalescer. -/
structure HeadChangeCoalescer where
  revert : List TipSet
  apply : List TipSet

namespace HeadChangeCoalescer

def merge (pend incoming : List TipSet) (cancel1 cancel2 : List TipSetKey) : List TipSet :=
  pend.filter (fun ts => ts.key ∉ cancel1 ∧ ts.key ∉ cancel2) ++
    incoming.filter (fun ts => ts.key ∉ cancel1 ∧ ts.key ∉ cancel2)

/-- Newly reverted tipsets cancel out with pending applies, newly applied ones
with pending reverts. -/
def coalesce (c : HeadChangeCoalescer) (revert apply : List TipSet) : HeadChangeCoalescer :=
  let pendRevert := c.revert.map TipSet.key
  let pendApply := c.apply.map TipSet.key
  let reverting := revert.map TipSet.key
  let applying := apply.map TipSet.key
  { revert := merge c.revert revert pendApply applying
    apply := merge c.apply apply pendRevert reverting }

end HeadChangeCoalescer

/-- What the background loop reacts to: the chain moves its head to `new`, or
the coalescer dispatches. -/
inductive CoalescerEvent
  | headChange (new : TipSet)
  | dispatch

/-- The chain's head, the coalescer, and what the notifee was given so far. -/
structure CoalescerRun where
  head : TipSet
  coalescer : HeadChangeCoalescer
  notified : List (List TipSet × List TipSet)

/-- A coalescer that is created while the chain's head is `head`. -/
def CoalescerRun.init (head : TipSet) : CoalescerRun := ⟨head, ⟨[], []⟩, []⟩

/-- One round of the background loop. -/
def CoalescerRun.step (lts : TipSetKey → Option TipSet) (st : CoalescerRun) :
    CoalescerEvent → Option CoalescerRun
  | .headChange new => do
      let (revert, apply) ← headChangePath lts st.head new
      some { st with head := new, coalescer := st.coalescer.coalesce revert apply }
  | .dispatch =>
      some { st with
        coalescer := ⟨[], []⟩
        notified := st.notified ++ [(st.coalescer.revert, st.coalescer.apply)] }

/-- The head at the previous dispatch and the head at the dispatch, for each
dispatch of a run that starts with these two heads. -/
def dispatchHeads (last head : TipSet) : List CoalescerEvent → List (TipSet × TipSet)
  | [] => []
  | .headChange new :: es => dispatchHeads last new es
  | .dispatch :: es => (last, head) :: dispatchHeads head head es

/-! ## Merging two head changes of a tree -/

namespace CoalescerLemmas

variable {t : BlockTree}

/-- Among tipsets of one tree a key stands for the tipset. -/
theorem key_mem_map_iff {l : List TipSet} {ts : TipSet} (hl : ∀ x ∈ l, t.Has x)
    (hts : t.Has ts) : ts.key ∈ l.map TipSet.key ↔ ts ∈ l := by
  constructor
  · intro h
    obtain ⟨x, hx, hk⟩ := mem_map.mp h
    have hx' : t.loadTipSet ts.key = some x := hk ▸ hl x hx
    rwa [Option.mem_unique hts hx']
  · exact mem_map_of_mem

theorem has_of_mem_filter {ts x : TipSet} {l : List TipSet} {p : TipSet → Bool}
    (h : Walk t ts l) (hx : x ∈ l.filter p) : t.Has x :=
  h.mem_has (mem_of_mem_filter hx)

/-- Cancelling by the keys of two lists of the tree is cancelling their
members. -/
theorem filter_cancel {l c1 c2 : List TipSet} (hl : ∀ x ∈ l, t.Has x)
    (h1 : ∀ x ∈ c1, t.Has x) (h2 : ∀ x ∈ c2, t.Has x) :
    l.filter (fun ts => ts.key ∉ c1.map TipSet.key ∧ ts.key ∉ c2.map TipSet.key) =
      l.filter (fun ts => ts ∉ c1 ∧ ts ∉ c2) := by
  refine filter_congr fun x hx => ?_
  simp only [key_mem_map_iff h1 (hl x hx), key_mem_map_iff h2 (hl x hx)]

/-- Coalescing the head change from `b` to `c` into the one from `a` to `b`
gives the one from `a` to `c`. -/
theorem coalesce_path {a b c : TipSet} {A B C : List TipSet} (ha : Walk t a A)
    (hb : Walk t b B) (hc : Walk t c C) :
    HeadChangeCoalescer.coalesce ⟨A.reverse.filter (· ∉ B), B.filter (· ∉ A)⟩
        (B.reverse.filter (· ∉ C)) (C.filter (· ∉ B)) =
      ⟨A.reverse.filter (· ∉ C), C.filter (· ∉ A)⟩ := by
  have hasA : ∀ x ∈ A.reverse.filter (· ∉ B), t.Has x := fun x hx =>
    ha.mem_has (mem_reverse.mp (mem_of_mem_filter hx))
  have hasB : ∀ x ∈ B.reverse.filter (· ∉ C), t.Has x := fun x hx =>
    hb.mem_has (mem_reverse.mp (mem_of_mem_filter hx))
  have hasB' : ∀ x ∈ B.filter (· ∉ A), t.Has x := fun x hx => has_of_mem_filter hb hx
  have hasC : ∀ x ∈ C.filter (· ∉ B), t.Has x := fun x hx => has_of_mem_filter hc hx
  simp only [HeadChangeCoalescer.coalesce, HeadChangeCoalescer.merge, HeadChangeCoalescer.mk.injEq]
  constructor
  · rw [filter_cancel hasA hasB' hasC, filter_cancel hasB hasB' hasC, filter_filter,
      filter_filter]
    refine Eq.trans ?_ (fork_back_merge (ha.fork hb))
    congr 1
    · refine filter_congr fun x hx => ?_
      by_cases hxB : x ∈ B <;> simp [hxB]
    · refine filter_congr fun x hx => ?_
      have hxB : x ∈ B := mem_reverse.mp hx
      by_cases hxA : x ∈ A <;> by_cases hxC : x ∈ C <;> simp [hxA, hxB, hxC]
  · rw [filter_cancel hasB' hasA hasB, filter_cancel hasC hasA hasB, filter_filter,
      filter_filter]
    refine Eq.trans ?_ (fork_forth_merge (hb.fork hc))
    congr 1
    · refine filter_congr fun x hx => ?_
      by_cases hxA : x ∈ A <;> by_cases hxC : x ∈ C <;> simp [hxA, hx, hxC]
    · refine filter_congr fun x hx => ?_
      by_cases hxA : x ∈ A <;> by_cases hxB : x ∈ B <;> simp [hxA, hx, hxB]

/-- The invariant of a run: the pending head change is the direct one from the
head at the last dispatch to the current head. -/
def Pending (t : BlockTree) (last : TipSet) (st : CoalescerRun) : Prop :=
  t.Has last ∧ t.Has st.head ∧
    headChangePath t.loadTipSet last st.head = some (st.coalescer.revert, st.coalescer.apply)

theorem pending_self {head : TipSet} (h : t.Has head)
    (notified : List (List TipSet × List TipSet)) : Pending t head ⟨head, ⟨[], []⟩, notified⟩ := by
  refine ⟨h, h, ?_⟩
  obtain ⟨A, hA⟩ := h.walk
  simp [headChangePath_eq hA hA]

theorem pending_headChange {last new : TipSet} {st : CoalescerRun}
    (h : Pending t last st) (hnew : t.Has new) :
    ∃ st', st.step t.loadTipSet (.headChange new) = some st' ∧ st'.notified = st.notified ∧
      st'.head = new ∧ Pending t last st' := by
  obtain ⟨hlast, hhead, hpath⟩ := h
  obtain ⟨A, hA⟩ := hlast.walk
  obtain ⟨B, hB⟩ := hhead.walk
  obtain ⟨C, hC⟩ := hnew.walk
  rw [headChangePath_eq hA hB, Option.some.injEq, Prod.mk.injEq] at hpath
  have hmerged := coalesce_path hA hB hC
  rw [hpath.1, hpath.2] at hmerged
  have hstep : st.step t.loadTipSet (.headChange new) =
      some ⟨new, ⟨A.reverse.filter (· ∉ C), C.filter (· ∉ A)⟩, st.notified⟩ := by
    rw [← hmerged]
    simp only [CoalescerRun.step, headChangePath_eq hB hC]
    rfl
  exact ⟨_, hstep, rfl, rfl, hlast, hnew, headChangePath_eq hA hC⟩

end CoalescerLemmas

open CoalescerLemmas

/-- A run from a state with a pending head change, started with the head
`last` at its last dispatch. -/
theorem notified_of_pending {t : BlockTree} {last : TipSet} {st : CoalescerRun}
    (h : Pending t last st) (es : List CoalescerEvent)
    (hes : ∀ new, .headChange new ∈ es → t.Has new) :
    ∃ st', es.foldlM (CoalescerRun.step t.loadTipSet) st = some st' ∧
      st'.notified.map some = st.notified.map some ++
        (dispatchHeads last st.head es).map fun d => headChangePath t.loadTipSet d.1 d.2 := by
  induction es generalizing last st with
  | nil => exact ⟨st, rfl, by simp [dispatchHeads]⟩
  | cons e es ih =>
    have hes' : ∀ new, .headChange new ∈ es → t.Has new :=
      fun new hnew => hes new (mem_cons_of_mem _ hnew)
    cases e with
    | headChange new =>
      obtain ⟨st1, hstep, hnot, hhead, hpend⟩ :=
        pending_headChange h (hes new mem_cons_self)
      obtain ⟨st', hrun, heq⟩ := ih hpend hes'
      refine ⟨st', by simp [foldlM_cons, hstep, hrun], ?_⟩
      rw [heq, hnot, hhead]
      rfl
    | dispatch =>
      have hpend := pending_self h.2.1
        (st.notified ++ [(st.coalescer.revert, st.coalescer.apply)])
      obtain ⟨st', hrun, heq⟩ := ih hpend hes'
      refine ⟨st', by simp [foldlM_cons, CoalescerRun.step, hrun], ?_⟩
      rw [heq]
      simp [dispatchHeads, h.2.2]

/-- Whatever the sequence of head changes on a block tree and the moments of
the dispatches, the notifee is given, dispatch by dispatch, the direct head
change from the head at the previous dispatch to the head at this one. -/
theorem dispatched_eq_direct_paths (t : BlockTree) (start : TipSet) (hstart : t.Has start)
    (es : List CoalescerEvent) (hes : ∀ new, .headChange new ∈ es → t.Has new) :
    ∃ st, es.foldlM (CoalescerRun.step t.loadTipSet) (CoalescerRun.init start) = some st ∧
      st.notified.map some =
        (dispatchHeads start start es).map fun d => headChangePath t.loadTipSet d.1 d.2 := by
  obtain ⟨st, hrun, heq⟩ := notified_of_pending (pending_self hstart []) es hes
  exact ⟨st, hrun, by simpa using heq⟩

/-- A switch to the fork and back, a dispatch, and a last head change with its
own dispatch. The first dispatch is empty, since the head is back where it
was. -/
def forkAndBack : List CoalescerEvent :=
  [.headChange rightTs, .headChange leftTs, .dispatch, .headChange rightTs, .dispatch]

/-- `dispatched_eq_direct_paths` on the example tree. -/
theorem forkAndBack_dispatched :
    ∃ st, forkAndBack.foldlM (CoalescerRun.step forkTree.loadTipSet) (CoalescerRun.init leftTs) =
        some st ∧
      st.notified.map some = [some ([], []), some ([leftTs], [rightTs])] := by
  have hes : ∀ new, .headChange new ∈ forkAndBack → forkTree.Has new := by
    intro new hnew
    simp only [forkAndBack, mem_cons, CoalescerEvent.headChange.injEq, reduceCtorEq,
      not_mem_nil, or_false, false_or] at hnew
    rcases hnew with rfl | rfl | rfl <;> rfl
  obtain ⟨st, hrun, heq⟩ := dispatched_eq_direct_paths forkTree leftTs rfl forkAndBack hes
  exact ⟨st, hrun, heq.trans (by decide)⟩

end OpenDsn.Chain
