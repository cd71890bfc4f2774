import OpenDsn.Cli.Metadata
import OpenDsn.Lib.Run

/-!
# Version chains over runs of `client deal`

A run starts in a directory without metadata and consists of successful
commands. Neither command looks at the metadata the recorded CID already has,
and an update overwrites the forward pointer of its previous version.

* `allResolve_iff_keepsAcyclic`: every version can be traced back to a version
  without predecessor exactly as long as no update records a CID its previous
  version descends from;
* `consistent_iff_extendsHead`: with fresh CIDs, the forward walk from a root
  has every version that traces back to it exactly as long as every update
  extends the newest version.
-/

namespace OpenDsn.Cli

open Lib MetadataLemmas List

/-! ## Tracing back -/

/-- `retrieve-version` resolves `t`, and line 1 of the version it ends at is
`NULL`. -/
def Resolves (cids : CidParser) (dir : Dir) (t : Text) : Prop :=
  ∃ root rest, retrieveVersionChain cids dir t = some (.ok (root :: rest)) ∧
    previousCid cids dir root = .ok none

def AllResolve (cids : CidParser) (dir : Dir) : Prop :=
  ∀ t, metaPath t ∈ dir → Resolves cids dir t

/-- An update does not record a CID that its previous version is or descends
from. -/
def KeepsAcyclic (cids : CidParser) (dir : Dir) (call : DealCall) : Prop :=
  call.args.update = true → ¬ LeadsTo (previousCid cids dir) call.args.previous call.args.dataCid

variable {cids : CidParser} {dir dir' : Dir} {call : DealCall}

namespace VersionChainLemmas

section

variable (hwf : WellFormed cids dir)
include hwf

theorem previousCid_ok_iff {t : Text} : metaPath t ∈ dir ↔ ∃ o, previousCid cids dir t = .ok o := by
  constructor
  · intro ht
    obtain ⟨-, m, hm⟩ := meta_of_mem hwf ht
    exact ⟨_, previousCid_content hm⟩
  · rintro ⟨o, ho⟩
    exact mem_of_previousCid ho

theorem nextCid_ok_iff {t : Text} : metaPath t ∈ dir ↔ ∃ o, nextCid cids dir t = .ok o := by
  constructor
  · intro ht
    obtain ⟨-, m, hm⟩ := meta_of_mem hwf ht
    exact ⟨_, nextCid_content hm⟩
  · rintro ⟨o, ho⟩
    exact mem_of_nextCid ho

/-- A chain back to `root` is what `retrieve-version` finds. -/
theorem retrieve_of_chain {t root : Text} {a : List Text}
    (h : Chain (previousCid cids dir) t (a ++ [root])) :
    retrieveVersionChain cids dir t = some (.ok (root :: a.reverse)) := by
  obtain ⟨o, ho⟩ := h.next_ok h.head_mem
  have hacc := (meta_of_mem hwf (mem_of_previousCid ho)).1
  exact retrieveVersionChain_ok_iff.mpr ⟨hacc, _, h, by simp⟩

theorem allResolve_iff : AllResolve cids dir ↔ AllChains (previousCid cids dir) := by
  constructor
  · intro hall t o ho
    obtain ⟨root, rest, hchain, -⟩ := hall t (mem_of_previousCid ho)
    obtain ⟨-, l, hl, -⟩ := retrieveVersionChain_ok_iff.mp hchain
    exact ⟨l, hl⟩
  · intro hall t ht
    obtain ⟨o, ho⟩ := (previousCid_ok_iff hwf).mp ht
    obtain ⟨l, hl⟩ := hall t o ho
    obtain ⟨a, root, rfl, hroot⟩ := hl.exists_end
    exact ⟨root, a.reverse, retrieve_of_chain hwf hl, hroot⟩

/-- One command: if every version resolved before it, every version resolves
after it exactly when it closes no cycle. -/
theorem allResolve_step (hall : AllResolve cids dir) (h : dealStep cids dir call = some dir') :
    AllResolve cids dir' ↔ KeepsAcyclic cids dir call := by
  obtain ⟨hwf', heff⟩ := dealStep_effect hwf h
  rw [allResolve_iff hwf'] at *
  rw [allResolve_iff hwf] at hall
  cases heff with
  | create _ hupdate hprev _ =>
    rw [hprev.allChains_iff hall]
    refine ⟨fun _ hu => ?_, fun _ => ⟨_, .last hprev.self⟩⟩
    rw [hupdate] at hu
    cases hu
  | update _ hupdate _ hmeta hprev _ _ =>
    obtain ⟨o, ho⟩ := hmeta
    obtain ⟨l, hl⟩ := hall _ o ho
    rw [hprev.allChains_iff hall, hprev.chain_iff hl]
    exact ⟨fun hn _ => hn, fun hk => hk hupdate⟩
  | deal _ hupdate heq =>
    subst heq
    refine ⟨fun _ hu => ?_, fun _ => hall⟩
    rw [hupdate] at hu
    cases hu

end

end VersionChainLemmas

open VersionChainLemmas

/-- In every run from an empty directory, all versions resolve in every state
exactly when no update closes a cycle. -/
theorem allResolve_iff_keepsAcyclic {cids : CidParser} {calls : List DealCall}
    {dirs : List Dir} (h : trace (dealStep cids) ∅ calls = some dirs) :
    (∀ dir ∈ dirs, AllResolve cids dir) ↔ Guarded (dealStep cids) (KeepsAcyclic cids) ∅ calls :=
  trace_forall_iff (fun _ _ _ hwf _ _ hstep => (dealStep_effect hwf hstep).1)
    (fun _ _ _ hwf hall hstep => allResolve_step hwf hall hstep) wellFormed_empty
    (fun _ ht => absurd ht (AList.notMem_empty _)) h

/-! ### Runs on one-letter CIDs -/

/-- A parser that accepts three CIDs. -/
def letterCids : CidParser where
  accepts t := t = ['A'] ∨ t = ['B'] ∨ t = ['C']
  cidText := by
    intro t ht
    rcases of_decide_eq_true ht with rfl | rfl | rfl <;>
      exact ⟨by decide, by decide, Text.no_space_of_any (by decide)⟩

/-- Everything outside the command succeeds. -/
def calmEnv : DealEnv := ⟨fun _ => .done, true, true⟩

def createCall (dataCid : Text) : DealCall := ⟨calmEnv, ⟨true, false, [], dataCid⟩⟩

def updateCall (previous dataCid : Text) : DealCall :=
  ⟨calmEnv, ⟨false, true, previous, dataCid⟩⟩

theorem allResolve_iff_keepsAcyclic_branches :
    ∃ dirs, trace (dealStep letterCids) ∅
        [createCall ['A'], updateCall ['A'] ['B'], updateCall ['A'] ['C']] = some dirs ∧
      ((∀ dir ∈ dirs, AllResolve letterCids dir) ↔
        Guarded (dealStep letterCids) (KeepsAcyclic letterCids) ∅
          [createCall ['A'], updateCall ['A'] ['B'], updateCall ['A'] ['C']]) :=
  exists_trace_of (by decide) fun _ h => allResolve_iff_keepsAcyclic h

/-- Going back to the content of the first version closes a cycle: `A` is
recorded once more, as the successor of `B`. -/
theorem update_back_to_first_version :
    ∃ dirs, trace (dealStep letterCids) ∅
        [createCall ['A'], updateCall ['A'] ['B'], updateCall ['B'] ['A']] = some dirs ∧
      ∃ dir ∈ dirs, metaPath ['A'] ∈ dir ∧
        retrieveVersionChain letterCids dir ['A'] = some (.error (.cycle ['A'])) :=
  exists_trace (by decide)

/-! ## Listing forward -/

section

variable (cids dir)

/-- A successful command whose recorded CID has no metadata file yet. -/
def freshStep (call : DealCall) : Option Dir :=
  if (call.args.create || call.args.update) && metaPath call.args.dataCid ∈ dir then none
  else dealStep cids dir call

/-- `list-version` of the root that `t` traces back to lists `t`, and only
versions that trace back to this root. -/
def Consistent : Prop :=
  ∀ t root rest, metaPath t ∈ dir → retrieveVersionChain cids dir t = some (.ok (root :: rest)) →
    ∃ l, listVersion cids dir root = some (.ok (some l)) ∧ t ∈ l ∧
      ∀ u ∈ l, ∃ rest', retrieveVersionChain cids dir u = some (.ok (root :: rest'))

/-- An update names a version that has no successor yet. -/
def ExtendsHead (call : DealCall) : Prop :=
  call.args.update = true → nextCid cids dir call.args.previous = .ok none

/-- The versions form lists that are linked both ways. -/
def Linear : Prop :=
  ∀ t, metaPath t ∈ dir → ∃ root tip l,
    Line (previousCid cids dir) (nextCid cids dir) root tip l ∧ t ∈ l

end

namespace VersionChainLemmas

theorem freshStep_ok (h : freshStep cids dir call = some dir') :
    dealStep cids dir call = some dir' ∧
      (call.args.create = true ∨ call.args.update = true → metaPath call.args.dataCid ∉ dir) := by
  unfold freshStep at h
  split at h
  · cases h
  next hfresh =>
  refine ⟨h, fun hrec hmem => hfresh ?_⟩
  rcases hrec with hr | hr <;> simp [hr, hmem]

theorem mem_of_line {root tip t : Text} {l : List Text}
    (h : Line (previousCid cids dir) (nextCid cids dir) root tip l) (ht : t ∈ l) :
    metaPath t ∈ dir := by
  obtain ⟨o, ho⟩ := h.fwd.next_ok ht
  exact mem_of_nextCid ho

theorem consistent_of_linear (hwf : WellFormed cids dir) (hlin : Linear cids dir) :
    Consistent cids dir := by
  intro t root rest ht hback
  obtain ⟨-, m, hm, hroot⟩ := retrieveVersionChain_ok_iff.mp hback
  obtain ⟨root', tip, l, hline, htl⟩ := hlin t ht
  obtain ⟨a, ha⟩ := hline.back_of_mem htl
  -- The chain back from `t` is unique, so the line starts at `root`.
  have hm' : m = a ++ [root'] := hm.unique ha
  rw [hm', reverse_append] at hroot
  cases hroot
  have hacc := (meta_of_mem hwf (mem_of_line hline hline.fwd.head_mem)).1
  refine ⟨l, (listVersion_ok_iff hacc).mpr hline.fwd, htl, fun u hu => ?_⟩
  obtain ⟨b, hb⟩ := hline.back_of_mem hu
  exact ⟨_, retrieve_of_chain hwf hb⟩

/-- A new version without links is a line of its own. -/
theorem linear_create {c : Text} (hwf' : WellFormed cids dir') (hc : metaPath c ∉ dir)
    (hprev : Repoint (previousCid cids dir) c none (previousCid cids dir'))
    (hnext : Repoint (nextCid cids dir) c none (nextCid cids dir'))
    (hlin : Linear cids dir) : Linear cids dir' := by
  intro t ht
  by_cases htc : t = c
  · subst htc
    exact ⟨t, t, [t], ⟨.last hnext.self, .last hprev.self⟩, mem_cons_self⟩
  · obtain ⟨o, ho⟩ := (previousCid_ok_iff hwf').mp ht
    obtain ⟨root, tip, l, hline, htl⟩ :=
      hlin t (mem_of_previousCid ((hprev.other t htc).symm.trans ho))
    have hne : ∀ y ∈ l, y ≠ c := fun y hy hyc => hc (hyc ▸ mem_of_line hline hy)
    exact ⟨root, tip, l, hline.congr (fun y hy => hprev.other y (hne y hy))
      (fun y hy => hnext.other y (hne y hy)), htl⟩

section Update

variable {c p : Text} {mid : Text → Except MetaError (Option Text)}
  (hc : metaPath c ∉ dir) (hp : metaPath p ∈ dir)
  (hprev : Repoint (previousCid cids dir) c (some p) (previousCid cids dir'))
  (hmid : Repoint (nextCid cids dir) p (some c) mid)
  (hnext : Repoint mid c none (nextCid cids dir'))
include hc hp hprev hmid hnext

/-- Everything an update of a fresh CID changes in a line of old versions. -/
theorem update_frame {root tip : Text} {l : List Text}
    (hline : Line (previousCid cids dir) (nextCid cids dir) root tip l) :
    (∀ y ∈ l, y ≠ c) ∧ (∀ y ∈ l, previousCid cids dir' y = previousCid cids dir y) ∧
      (∀ y ∈ l, y ≠ p → nextCid cids dir' y = nextCid cids dir y) ∧
      nextCid cids dir' p = .ok (some c) := by
  have hne : ∀ y ∈ l, y ≠ c := fun y hy hyc => hc (hyc ▸ mem_of_line hline hy)
  have hpc : p ≠ c := fun h => hc (h ▸ hp)
  exact ⟨hne, fun y hy => hprev.other y (hne y hy),
    fun y hy hyp => (hnext.other y (hne y hy)).trans (hmid.other y hyp),
    (hnext.other p hpc).trans hmid.self⟩

/-- Recorded after the newest version, the new one joins its line. -/
theorem linear_update (hwf' : WellFormed cids dir')
    (hend : nextCid cids dir p = .ok none) (hlin : Linear cids dir) : Linear cids dir' := by
  -- Every line of `dir` is in `dir'` too, or was extended by `c`.
  have hold : ∀ t root tip l, Line (previousCid cids dir) (nextCid cids dir) root tip l →
      t ∈ l → ∃ root' tip' l',
        Line (previousCid cids dir') (nextCid cids dir') root' tip' l' ∧ t ∈ l' ∧
          (p ∈ l → c ∈ l') := by
    intro t root tip l hline htl
    obtain ⟨-, hprev', hnext', hpc⟩ := update_frame hc hp hprev hmid hnext hline
    by_cases hpl : p ∈ l
    · obtain ⟨rfl, -⟩ := hline.tip_of_end hpl hend
      exact ⟨root, c, l ++ [c], hline.snoc hpl hend hprev' hnext' hprev.self hpc hnext.self,
        mem_append_left _ htl, fun _ => mem_append_right _ mem_cons_self⟩
    · have hnext'' : ∀ y ∈ l, nextCid cids dir' y = nextCid cids dir y :=
        fun y hy => hnext' y hy fun hyp => hpl (hyp ▸ hy)
      exact ⟨root, tip, l, hline.congr hprev' hnext'', htl, fun h => absurd h hpl⟩
  intro t ht
  by_cases htc : t = c
  · subst htc
    obtain ⟨root, tip, l, hline, hpl⟩ := hlin p hp
    obtain ⟨root', tip', l', hline', -, hcl⟩ := hold p root tip l hline hpl
    exact ⟨root', tip', l', hline', hcl hpl⟩
  · obtain ⟨o, ho⟩ := (previousCid_ok_iff hwf').mp ht
    obtain ⟨root, tip, l, hline, htl⟩ :=
      hlin t (mem_of_previousCid ((hprev.other t htc).symm.trans ho))
    obtain ⟨root', tip', l', hline', htl', -⟩ := hold t root tip l hline htl
    exact ⟨root', tip', l', hline', htl'⟩

/-- Recorded after a version that has a successor, the new version takes that
successor's place in the forward walk. -/
theorem not_consistent_update (hwf' : WellFormed cids dir') {s : Text}
    (hs : nextCid cids dir p = .ok (some s)) (hlin : Linear cids dir) :
    ¬ Consistent cids dir' := by
  intro hcons
  obtain ⟨root, tip, l, hline, hpl⟩ := hlin p hp
  obtain ⟨hne, hprev', hnext', hpc⟩ := update_frame hc hp hprev hmid hnext hline
  obtain ⟨a, b, rfl, hpb⟩ := hline.fwd.split hpl
  have hsb : s ∈ b := by
    cases hpb with
    | last hx => rw [hs] at hx; cases hx
    | link hx ht => rw [hs] at hx; cases hx; exact ht.head_mem
  have hsl : s ∈ a ++ p :: b := mem_append_right _ (mem_cons_of_mem _ hsb)
  have hnd := nodup_append.mp hline.fwd.nodup
  have hfwd : Chain (nextCid cids dir') root (a ++ [p, c]) := by
    refine hline.fwd.graft (fun y hy => ?_) (.link hpc (.last hnext.self))
    exact hnext' y (mem_append_left _ hy) fun hyp => hnd.2.2 y hy p mem_cons_self hyp
  -- `s` still traces back to `root`, where the walk no longer meets it.
  have hback : Chain (previousCid cids dir') tip (a ++ p :: b).reverse :=
    hline.back.congr fun y hy => hprev' y (mem_reverse.mp hy)
  obtain ⟨m, hm⟩ := hback.of_mem_reverse hline.fwd.head?_eq hsl
  obtain ⟨o, ho⟩ := hm.next_ok hm.head_mem
  obtain ⟨l', hl', hsl', -⟩ := hcons s root _ (mem_of_previousCid ho) (retrieve_of_chain hwf' hm)
  obtain ⟨o', ho'⟩ := hfwd.next_ok hfwd.head_mem
  have hacc := (meta_of_mem hwf' (mem_of_nextCid ho')).1
  rw [((listVersion_ok_iff hacc).mp hl').unique hfwd] at hsl'
  rcases mem_append.mp hsl' with hsa | hsp
  · exact hnd.2.2 s hsa s (mem_cons_of_mem _ hsb) rfl
  · rcases mem_cons.mp hsp with rfl | hsc
    · exact (nodup_cons.mp hnd.2.1).1 hsb
    · exact hne s hsl (mem_singleton.mp hsc)

end Update

/-- One command with a fresh CID: linear metadata stays so exactly when the
update, if it is one, extends the newest version. -/
theorem consistent_step (hwf : WellFormed cids dir) (hlin : Linear cids dir)
    (h : freshStep cids dir call = some dir') :
    (Consistent cids dir' ↔ ExtendsHead cids dir call) ∧
      (ExtendsHead cids dir call → Linear cids dir') := by
  obtain ⟨hdeal, hfresh⟩ := freshStep_ok h
  obtain ⟨hwf', heff⟩ := dealStep_effect hwf hdeal
  suffices hlin' : (ExtendsHead cids dir call → Linear cids dir') ∧
      (¬ ExtendsHead cids dir call → ¬ Consistent cids dir') by
    refine ⟨⟨fun hcons => ?_, fun hext => consistent_of_linear hwf' (hlin'.1 hext)⟩, hlin'.1⟩
    exact Classical.byContradiction fun hext => hlin'.2 hext hcons
  cases heff with
  | create hcreate hupdate hprev hnext =>
    refine ⟨fun _ => linear_create hwf' (hfresh (.inl hcreate)) hprev hnext hlin, ?_⟩
    intro hext
    exact absurd (fun hu => by rw [hupdate] at hu; cases hu) hext
  | update _ hupdate mid hmeta hprev hmid hnext =>
    have hc := hfresh (.inr hupdate)
    have hp := (previousCid_ok_iff hwf).mpr hmeta
    refine ⟨fun hext => linear_update hc hp hprev hmid hnext hwf' (hext hupdate) hlin, ?_⟩
    intro hext
    obtain ⟨o, ho⟩ := (nextCid_ok_iff hwf).mp hp
    cases o with
    | none => exact absurd (fun _ => ho) hext
    | some s => exact not_consistent_update hc hp hprev hmid hnext hwf' ho hlin
  | deal _ hupdate heq =>
    subst heq
    exact ⟨fun _ => hlin, fun hext => absurd (fun hu => by rw [hupdate] at hu; cases hu) hext⟩

theorem linear_empty : Linear cids ∅ := fun _ ht => absurd ht (AList.notMem_empty _)

end VersionChainLemmas

/-- In every run from an empty directory that records fresh CIDs, the two
directions agree in every state exactly when every update extends the newest
version of its file. -/
theorem consistent_iff_extendsHead {cids : CidParser} {calls : List DealCall}
    {dirs : List Dir} (h : trace (freshStep cids) ∅ calls = some dirs) :
    (∀ dir ∈ dirs, Consistent cids dir) ↔ Guarded (freshStep cids) (ExtendsHead cids) ∅ calls := by
  have hinv : ∀ dir call dir', (WellFormed cids dir ∧ Linear cids dir) → Consistent cids dir →
      ExtendsHead cids dir call → freshStep cids dir call = some dir' →
      WellFormed cids dir' ∧ Linear cids dir' :=
    fun _ _ _ hi _ hext hstep => ⟨(dealStep_effect hi.1 (freshStep_ok hstep).1).1,
      (consistent_step hi.1 hi.2 hstep).2 hext⟩
  exact trace_forall_iff hinv (fun _ _ _ hi _ hstep => (consistent_step hi.1 hi.2 hstep).1)
    ⟨wellFormed_empty, linear_empty⟩ (consistent_of_linear wellFormed_empty linear_empty) h

theorem consistent_iff_extendsHead_two_updates :
    ∃ dirs, trace (freshStep letterCids) ∅
        [createCall ['A'], updateCall ['A'] ['B'], updateCall ['B'] ['C']] = some dirs ∧
      ((∀ dir ∈ dirs, Consistent letterCids dir) ↔
        Guarded (freshStep letterCids) (ExtendsHead letterCids) ∅
          [createCall ['A'], updateCall ['A'] ['B'], updateCall ['B'] ['C']]) :=
  exists_trace_of (by decide) fun _ h => consistent_iff_extendsHead h

/-- A second update of `A` hides the first one: `B` traces back to `A`, whose
list has only `C`. -/
theorem second_update_hides_first :
    ∃ dirs, trace (freshStep letterCids) ∅
        [createCall ['A'], updateCall ['A'] ['B'], updateCall ['A'] ['C']] = some dirs ∧
      ∃ dir ∈ dirs, metaPath ['B'] ∈ dir ∧
        retrieveVersionChain letterCids dir ['B'] = some (.ok [['A'], ['B']]) ∧
        listVersion letterCids dir ['A'] = some (.ok (some [['A'], ['C']])) :=
  exists_trace (by decide)

end OpenDsn.Cli
