import Mathlib.Data.Char
import Mathlib.Data.List.Lex
import Mathlib.Data.Prod.Lex
import OpenDsn.Api.Catalog
import OpenDsn.Lib.RootedTree

/-!
# What normalization does to a file

The links of a file pair each version's CID with the one of its previous
version. Normalization orders and labels the versions and keeps the links.

* `links_normalizeVersions`: with distinct CIDs, no link is lost, added or
  changed, whatever the previous CIDs are;
* `generation_normalizeVersions`: in a tree of versions the first number of each
  label is the version's distance from the root, plus one;
* `normalizeVersions_perm`: the order of the versions does not matter if the root
  leads to all of them;
* `versionLabels_nodup_iff`: the labels of a tree are distinct exactly if its branches are apart.
-/

namespace OpenDsn.Api

open Lib Lib.Text VersionLabelLemmas List

variable {file : CatalogFile}

/-- A CID as `handleClientDeal` passes it on: trimmed, and not empty. -/
def IsCid (t : Text) : Prop := t ≠ [] ∧ trimSpace t = t

def link (v : CatalogVersion) : Text × Option Text :=
  (v.cid, if v.previousCid = [] then none else some v.previousCid)

def links (file : CatalogFile) : Multiset (Text × Option Text) := ↑(file.versions.map link)

namespace NormalizeLemmas

open CatalogVersion

variable {env : CatalogEnv} {versions : List CatalogVersion} {walked : List Labelled}

/-! ## The walk -/

/-- A walked version is a version of the file, under its own CID. -/
def Valid (versions : List CatalogVersion) (e : Labelled) : Prop :=
  e.2.1 ∈ versions ∧ e.1 = e.2.1.cid

variable {v : CatalogVersion}

theorem mem_children {parent : Text} : v ∈ children env versions parent ↔
      v ∈ versions ∧ trimSpace v.previousCid ≠ [] ∧ trimSpace v.previousCid = parent := by
  unfold children
  rw [(env.sorter.perm _ _).mem_iff, mem_filter, decide_eq_true_iff]

theorem mem_successors {e e' : Labelled} (h : e' ∈ successors env versions e) :
    ∃ i v label, e' = labelled v label ∧ (children env versions e.1)[i]? = some v ∧
      (i = 0 ∧ label = nextGenerationLabel e.2.2 ∨
        ∃ k, i = k + 1 ∧ label = branchLabel (nextGenerationLabel e.2.2) k) := by
  unfold successors at h
  split at h
  · cases h
  next first branches hc =>
  rw [hc]
  rcases mem_cons.mp h with rfl | h
  · exact ⟨0, first, _, rfl, rfl, .inl ⟨rfl, rfl⟩⟩
  · obtain ⟨k, hk, rfl⟩ := mem_mapIdx.mp h
    exact ⟨k + 1, branches[k], _, rfl, getElem?_eq_getElem hk, .inr ⟨k, rfl, rfl⟩⟩

theorem cid_mem_successors {e : Labelled}
    (h : v ∈ children env versions e.1) : ∃ e' ∈ successors env versions e, e'.1 = v.cid := by
  unfold successors
  split
  · next hc => rw [hc] at h; cases h
  · next first branches hc =>
    rw [hc] at h
    rcases mem_cons.mp h with rfl | h
    · exact ⟨_, mem_cons_self, rfl⟩
    · obtain ⟨k, hk, rfl⟩ := getElem_of_mem h
      exact ⟨_, mem_cons_of_mem _ (mem_mapIdx.mpr ⟨k, hk, rfl⟩), rfl⟩

theorem valid_labelled (hv : v ∈ versions) (label : Text) :
    Valid versions (labelled v label) := ⟨hv, rfl⟩

theorem valid_successors (e : Labelled) (_ : Valid versions e) :
    ∀ c ∈ successors env versions e, Valid versions c := by
  intro c hc
  obtain ⟨_, v, label, rfl, hv, -⟩ := mem_successors hc
  exact valid_labelled (mem_children.mp (mem_of_getElem? hv)).1 label

theorem valid_dom (e : Labelled) (h : Valid versions e) :
    e.1 ∈ versions.map CatalogVersion.cid := mem_map.mpr ⟨e.2.1, h.1, h.2.symm⟩

variable (versions walked) in
/-- A walk that has met each version at most once. -/
structure Walked : Prop where
  nodup : (keys walked).Nodup
  valid : ∀ e ∈ walked, Valid versions e

theorem Walked.nil : Walked versions [] := ⟨nodup_nil, by simp⟩

theorem fuel_lt :
    (versions.map CatalogVersion.cid).length < versions.length + 1 + walked.length := by
  rw [length_map]
  omega

section

variable (h : Walked versions walked)
include h

/-- One walk: it stays a walk, meets its first version, and continues to the
successors of everything it meets. -/
theorem walkTree_spec (env : CatalogEnv) (hv : v ∈ versions) (label : Text) :
    Walked versions (walkTree env versions walked v label) ∧
      Continues (successors env versions) walked (walkTree env versions walked v label) ∧
      v.cid ∈ keys (walkTree env versions walked v label) := by
  have hve := valid_labelled hv label
  exact ⟨⟨dfs_nodup h.nodup, dfs_forall valid_successors h.valid hve⟩,
    dfs_closed valid_dom valid_successors hve h.nodup h.valid fuel_lt⟩

/-- The fuel of `walkTree` is enough: the recursion of the source ends and
meets what `walkTree` does. -/
theorem walkTree_fuel (extra : Nat) (hv : v ∈ versions) (label : Text) :
    dfs (successors env versions) (versions.length + 1 + extra) walked (labelled v label) =
      walkTree env versions walked v label :=
  dfs_fuel valid_dom valid_successors (valid_labelled hv label) h.nodup h.valid fuel_lt extra

theorem walkOrphans_spec (env : CatalogEnv) {rest : List CatalogVersion}
    (hrest : ∀ v ∈ rest, v ∈ versions) {n : Nat} :
    Walked versions (walkOrphans env versions rest n walked) ∧
      keys walked ⊆ keys (walkOrphans env versions rest n walked) ∧
      ∀ v ∈ rest, v.cid ∈ keys (walkOrphans env versions rest n walked) := by
  induction rest generalizing n walked with
  | nil => exact ⟨h, fun _ hk => hk, by simp⟩
  | cons v rest ih =>
    obtain ⟨hv, hrest'⟩ := forall_mem_cons.mp hrest
    unfold walkOrphans
    split
    · next hmem =>
      obtain ⟨h1, h2, h3⟩ := ih h hrest' (n := n)
      exact ⟨h1, h2, forall_mem_cons.mpr ⟨h2 hmem, h3⟩⟩
    · obtain ⟨hw1, hw2, hw3⟩ := walkTree_spec h env hv
        ('v' :: itoa ((versions.length + 1 + n * (versions.length + 1) : Nat) : Int))
      obtain ⟨h1, h2, h3⟩ := ih hw1 hrest' (n := n + 1)
      exact ⟨h1, fun k hk => h2 (hw2.keys_subset hk), forall_mem_cons.mpr ⟨h2 hw3, h3⟩⟩

/-- A walk that has met every CID has met every version exactly once. -/
theorem Walked.perm (hnd : (versions.map CatalogVersion.cid).Nodup)
    (hall : ∀ v ∈ versions, v.cid ∈ keys walked) :
    (walked.map fun e => e.2.1).Perm versions := by
  have hkeys : keys walked = (walked.map fun e => e.2.1).map cid := by
    rw [map_map]
    exact map_congr_left fun e he => (h.valid e he).2
  have hnd' : (walked.map fun e => e.2.1).Nodup :=
    Nodup.of_map cid (hkeys ▸ h.nodup)
  rw [perm_ext_iff_of_nodup hnd' (Nodup.of_map _ hnd)]
  intro v
  constructor
  · intro hv
    obtain ⟨e, he, rfl⟩ := mem_map.mp hv
    exact (h.valid e he).1
  · intro hv
    obtain ⟨e, he, hcid⟩ := mem_map.mp (hall v hv)
    have hve := h.valid e he
    have heq : e.2.1 = v := inj_on_of_nodup_map hnd hve.1 hv (hve.2.symm.trans hcid)
    exact mem_map.mpr ⟨e, he, heq⟩

end

variable {root : CatalogVersion}

/-- The whole walk meets every version exactly once. -/
theorem walkVersions_spec (hnd : (versions.map CatalogVersion.cid).Nodup)
    (hroot : root ∈ versions) :
    Walked versions (walkVersions env versions root) ∧
      ((walkVersions env versions root).map fun e => e.2.1).Perm versions := by
  obtain ⟨hw, -, -⟩ := walkTree_spec .nil env hroot ['v', '1']
  unfold walkVersions
  simp only
  split
  · obtain ⟨h1, -, h3⟩ := walkOrphans_spec hw env (n := 0) fun v hv => hv
    exact ⟨h1, h1.perm hnd h3⟩
  · next hlen =>
    refine ⟨hw, hw.perm hnd fun v hv => ?_⟩
    -- As many CIDs as versions were met, so all of them.
    have hsub : keys (walkTree env versions [] root ['v', '1']) ⊆
        versions.map cid :=
      forall_mem_map.mpr fun e he => valid_dom e (hw.valid e he)
    have hperm := (Nodup.subperm hw.nodup hsub).perm_of_length_le (by
      rw [Lib.keys, length_map, length_map]
      exact Nat.le_of_not_lt hlen)
    exact hperm.mem_iff.mpr (mem_map_of_mem hv)

theorem walkVersions_eq (hnd : (versions.map CatalogVersion.cid).Nodup) (hroot : root ∈ versions)
    (hall : ∀ v ∈ versions, v.cid ∈ keys (walkTree env versions [] root ['v', '1'])) :
    walkVersions env versions root = walkTree env versions [] root ['v', '1'] := by
  have hperm := (walkTree_spec .nil env hroot ['v', '1']).1.perm hnd hall
  refine if_neg (not_lt.mpr ?_)
  rw [← hperm.length_eq, length_map]

/-! ## The normalized file -/

def filled (file : CatalogFile) : List CatalogVersion := file.versions.map (fillDefaults file)

theorem map_link_filled : (filled file).map link = file.versions.map link := by
  rw [filled, map_map]
  rfl

theorem map_cid_filled (file : CatalogFile) :
    (filled file).map CatalogVersion.cid = file.versions.map CatalogVersion.cid := by
  rw [filled, map_map]
  rfl

theorem map_link_orderedVersions :
    ((orderedVersions walked).map link).Perm ((walked.map fun e => e.2.1).map link) := by
  refine (stableSort_perm.map link).trans (Perm.of_eq ?_)
  rw [map_map, map_map]
  rfl

/-- The walk of a file with versions starts at its root version, if there is
one. -/
theorem normalizeVersions_eq (env : CatalogEnv) (hne : file.versions ≠ []) :
    ∃ root ∈ filled file, ((∃ v ∈ file.versions, v.cid = file.rootCid) → root.cid = file.rootCid) ∧
      normalizeVersions env file =
        { file with versions := orderedVersions (walkVersions env (filled file) root) } := by
  unfold normalizeVersions
  cases hf : file.versions.map (fillDefaults file) with
  | nil => exact absurd (map_eq_nil_iff.mp hf) hne
  | cons first rest =>
    have hfilled : filled file = first :: rest := hf
    rw [hfilled]
    refine ⟨startVersion file first rest, ?_, ?_, rfl⟩
    · unfold startVersion
      cases hfind : (first :: rest).find? (·.cid = file.rootCid) with
      | none => exact mem_cons_self
      | some root => exact mem_of_find?_eq_some hfind
    · rintro ⟨v, hv, hcid⟩
      unfold startVersion
      cases hfind : (first :: rest).find? (·.cid = file.rootCid) with
      | none =>
        have hmem : fillDefaults file v ∈ first :: rest := by
          rw [← hf]
          exact mem_map_of_mem hv
        have hno := find?_eq_none.mp hfind _ hmem
        exact absurd (decide_eq_true hcid) hno
      | some root =>
        have hroot := find?_some hfind
        exact of_decide_eq_true hroot

end NormalizeLemmas

open NormalizeLemmas

theorem rootCid_normalizeVersions (env : CatalogEnv) (file : CatalogFile) :
    (normalizeVersions env file).rootCid = file.rootCid := by
  unfold normalizeVersions
  split <;> rfl

/-- Normalization keeps the links of a file. -/
theorem links_normalizeVersions (env : CatalogEnv)
    (hnd : (file.versions.map CatalogVersion.cid).Nodup) :
    links (normalizeVersions env file) = links file := by
  by_cases hne : file.versions = []
  · unfold normalizeVersions
    rw [hne]
    rfl
  · obtain ⟨root, hroot, -, heq⟩ := normalizeVersions_eq env hne
    rw [← map_cid_filled] at hnd
    obtain ⟨-, hperm⟩ := walkVersions_spec hnd hroot
    rw [heq]
    have hlinks : ((filled file).map link).Perm (file.versions.map link) :=
      Perm.of_eq (map_link_filled)
    exact Multiset.coe_eq_coe.mpr
      ((map_link_orderedVersions).trans ((hperm.map link).trans hlinks))

/-! ## The order of the versions -/

/-- The CIDs that the root leads to, by the previous CIDs as `children` has them. -/
inductive Descends (file : CatalogFile) : Text → Prop
  | root : Descends file file.rootCid
  | child {v : CatalogVersion} (hv : v ∈ file.versions) (hne : trimSpace v.previousCid ≠ [])
      (hprev : Descends file (trimSpace v.previousCid)) : Descends file v.cid

namespace NormalizeLemmas

/-- The walk from the root meets what it leads to. -/
theorem mem_walkTree {cid : Text} (h : Descends file cid)
    (hroot : root ∈ filled file) (hcid : root.cid = file.rootCid) :
    cid ∈ keys (walkTree env (filled file) [] root ['v', '1']) := by
  obtain ⟨-, ⟨t, ht, hclosed⟩, hmem⟩ := walkTree_spec .nil env hroot ['v', '1']
  rw [nil_append] at ht
  induction h with
  | root => rwa [← hcid]
  | @child v hv hne _ ih =>
    obtain ⟨e, he, hkey⟩ := mem_map.mp ih
    have hchild : fillDefaults file v ∈ children env (filled file) e.1 :=
      mem_children.mpr ⟨mem_map_of_mem hv, hne, hkey.symm⟩
    obtain ⟨e', he', hkey'⟩ := cid_mem_successors hchild
    rw [show v.cid = e'.1 from hkey'.symm]
    exact hclosed e (ht ▸ he) e' he'

theorem childLess_iff (a b : CatalogVersion) : childLess a b = true ↔
    toLex (a.uploadedAt, toLex (a.sourceName, a.cid)) <
      toLex (b.uploadedAt, toLex (b.sourceName, b.cid)) := by
  unfold childLess
  rw [Prod.Lex.toLex_lt_toLex, Prod.Lex.toLex_lt_toLex]
  split_ifs <;> simp_all

/-- Siblings that tie have the same CID, so their order is that of no input. -/
theorem children_perm (hnd : (versions.map CatalogVersion.cid).Nodup)
    {versions' : List CatalogVersion} (hperm : versions'.Perm versions) (parent : Text) :
    children env versions' parent = children env versions parent := by
  have hless : StrictWeak childLess :=
    @StrictWeak.of_key _ (Text ×ₗ Text ×ₗ Text) _ _ _ childLess_iff
  refine Perm.eq_of_pairwise (fun a b ha hb hab hba => ?_) (env.sorter.sorted _ hless)
    (env.sorter.sorted _ hless)
    (((env.sorter.perm _ _).trans (hperm.filter _)).trans (env.sorter.perm _ _).symm)
  rw [← Bool.not_eq_true, childLess_iff, not_lt] at hab hba
  have hcid : a.cid = b.cid := congrArg (fun k => (ofLex (ofLex k).2).2) (le_antisymm hab hba)
  exact inj_on_of_nodup_map hnd (hperm.mem_iff.mp (mem_children.mp ha).1)
    (mem_children.mp hb).1 hcid

theorem walkTree_perm (hnd : (versions.map CatalogVersion.cid).Nodup)
    {versions' : List CatalogVersion} (hperm : versions'.Perm versions) (v : CatalogVersion)
    (label : Text) : walkTree env versions' [] v label = walkTree env versions [] v label := by
  have hnext : successors env versions' = successors env versions := by
    funext e
    unfold successors
    rw [children_perm hnd hperm]
  unfold walkTree
  rw [hnext, hperm.length_eq]

end NormalizeLemmas

/-! ## Labels and paths -/

def childCids (env : CatalogEnv) (versions : List CatalogVersion) (parent : Text) : List Text :=
  (children env versions parent).map CatalogVersion.cid

namespace NormalizeLemmas

variable {env : CatalogEnv} {versions : List CatalogVersion} {is js : List Nat}

/-- The label at the end of a path: its length, and the indexes that are not zero. -/
def pathLabel (path : List Nat) : Text :=
  formatVersionLabel (((path.length : Int) + 1) :: (path.filter (· ≠ 0)).map Nat.cast)

theorem pathLabel_inj (h : pathLabel is = pathLabel js) :
    is.length = js.length ∧ is.filter (· ≠ 0) = js.filter (· ≠ 0) := by
  have hparts := congrArg parseVersionLabel h
  rw [pathLabel, pathLabel, parse_format (by simp), parse_format (by simp)] at hparts
  obtain ⟨hlen, hforks⟩ := List.cons.inj (Option.some.inj hparts)
  exact ⟨by omega, map_injective_iff.mpr (fun _ _ => Int.ofNat.inj) hforks⟩

/-- Each version that the walk meets is labelled with its path. -/
theorem walkTree_path : ∀ e ∈ walkTree env versions [] root ['v', '1'],
      ∃ is, descend (childCids env versions) root.cid is = some e.1 ∧ e.2.2 = pathLabel is := by
  have hstart : ['v', '1'] = pathLabel [] := by decide
  refine dfs_forall ?_ (forall_mem_nil _) ⟨[], rfl, hstart⟩
  rintro e ⟨is, hpath, hlabel⟩ c hc
  obtain ⟨i, v, label, rfl, hv, hi⟩ := mem_successors hc
  refine ⟨is ++ [i], descend_snoc.mpr ⟨e.1, hpath, ?_⟩, ?_⟩
  · rw [childCids, getElem?_map, hv]
    rfl
  · rw [hlabel, pathLabel, nextGenerationLabel_format] at hi
    rcases hi with ⟨rfl, rfl⟩ | ⟨k, rfl, rfl⟩
    · simp [labelled, pathLabel]
    · rw [branchLabel_format]
      simp [labelled, pathLabel]

theorem mem_of_descend {c : Text} (hroot : root ∈ versions)
    (h : descend (childCids env versions) root.cid is = some c) :
    c ∈ versions.map CatalogVersion.cid := by
  obtain rfl | ⟨is, i, rfl⟩ := eq_nil_or_concat' is
  · cases h
    exact mem_map_of_mem hroot
  · obtain ⟨p, -, hi⟩ := descend_snoc.mp h
    obtain ⟨v, hv, rfl⟩ := mem_map.mp (mem_of_getElem? hi)
    exact mem_map_of_mem (mem_children.mp hv).1

/-- With distinct CIDs a version has one place among the children of one version. -/
theorem childCids_place (hnd : (versions.map CatalogVersion.cid).Nodup) {p q c : Text} {i j : Nat}
    (hi : (childCids env versions p)[i]? = some c) (hj : (childCids env versions q)[j]? = some c) :
    p = q ∧ i = j := by
  obtain ⟨v, hv, rfl⟩ := mem_map.mp (mem_of_getElem? hi)
  obtain ⟨w, hw, hcid⟩ := mem_map.mp (mem_of_getElem? hj)
  obtain ⟨hvm, -, rfl⟩ := mem_children.mp hv
  obtain ⟨hwm, -, rfl⟩ := mem_children.mp hw
  obtain rfl := inj_on_of_nodup_map hnd hwm hvm hcid
  have hkids : (childCids env versions (trimSpace w.previousCid)).Nodup :=
    ((env.sorter.perm _ _).map _).nodup_iff.mpr (hnd.sublist (filter_sublist.map _))
  obtain ⟨hlt, -⟩ := List.getElem?_eq_some_iff.mp hi
  exact ⟨rfl, (List.getElem?_inj hlt hkids).mp (hi.trans hj.symm)⟩

end NormalizeLemmas

section Descends

variable (env : CatalogEnv) {file : CatalogFile}
  (hnd : (file.versions.map CatalogVersion.cid).Nodup)
  (hroot : ∃ v ∈ file.versions, v.cid = file.rootCid)
  (hall : ∀ v ∈ file.versions, Descends file v.cid)
include hnd hroot hall

/-- If the root leads to all versions, the walk from it is the whole one. -/
theorem normalizeVersions_walk : ∃ root ∈ filled file, root.cid = file.rootCid ∧
    normalizeVersions env file = { file with
      versions := orderedVersions (walkTree env (filled file) [] root ['v', '1']) } := by
  obtain ⟨v, hv, -⟩ := id hroot
  obtain ⟨root, hmem, hcid, heq⟩ := normalizeVersions_eq env (ne_nil_of_mem hv)
  rw [← map_cid_filled] at hnd
  refine ⟨root, hmem, hcid hroot, ?_⟩
  rw [heq, walkVersions_eq hnd hmem fun w hw => ?_]
  obtain ⟨v, hv, rfl⟩ := mem_map.mp hw
  exact mem_walkTree (hall v hv) hmem (hcid hroot)

/-- The labels of a tree of versions, whose root is below no version, are distinct exactly if the
branches of the tree are apart. -/
theorem versionLabels_nodup_iff
    (hfirst : ∀ v ∈ file.versions, v.cid = file.rootCid →
      trimSpace v.previousCid ∉ file.versions.map CatalogVersion.cid) :
    ((normalizeVersions env file).versions.map CatalogVersion.versionLabel).Nodup ↔
      BranchesApart (childCids env (filled file)) file.rootCid := by
  obtain ⟨root, hmem, hcid, heq⟩ := normalizeVersions_walk env hnd hroot hall
  have hkeys := (walkTree_spec .nil env hmem ['v', '1']).1.nodup
  rw [← map_cid_filled] at hnd hfirst
  have hunique : ∀ is js c, descend (childCids env (filled file)) root.cid is = some c →
      descend (childCids env (filled file)) root.cid js = some c → is = js := by
    refine fun is js c => descend_unique (fun is h => ?_) fun p q i j c => childCids_place hnd
    obtain rfl | ⟨is, i, rfl⟩ := eq_nil_or_concat' is
    · rfl
    obtain ⟨p, hp, hi⟩ := descend_snoc.mp h
    obtain ⟨w, hw, hwc⟩ := mem_map.mp (mem_of_getElem? hi)
    obtain ⟨hwm, -, rfl⟩ := mem_children.mp hw
    obtain ⟨v, hv, rfl⟩ := mem_map.mp hwm
    exact absurd (mem_of_descend hmem hp) (hfirst v hv (hwc.trans hcid))
  rw [heq, branchesApart_iff, ← hcid]
  refine (stableSort_perm.map _).nodup_iff.trans ?_
  rw [map_map]
  constructor
  · intro hlabels is js c d hc hd hlen hforks
    have hlabelled : ∀ is c, descend (childCids env (filled file)) root.cid is = some c →
        ∃ e ∈ walkTree env (filled file) [] root ['v', '1'], e.1 = c ∧ e.2.2 = pathLabel is := by
      intro is c h
      have hc := mem_of_descend hmem h
      rw [map_cid_filled] at hc
      obtain ⟨v, hv, rfl⟩ := mem_map.mp hc
      obtain ⟨e, he, hkey⟩ := mem_map.mp (mem_walkTree (hall v hv) hmem hcid)
      obtain ⟨is', his', hlabel⟩ := walkTree_path e he
      exact ⟨e, he, hkey, by rw [hlabel, hunique is' is _ his' (hkey ▸ h)]⟩
    obtain ⟨e, he, rfl, hlabel⟩ := hlabelled is c hc
    obtain ⟨e', he', rfl, hlabel'⟩ := hlabelled js d hd
    have hsame : e.2.2 = e'.2.2 := by rw [hlabel, hlabel', pathLabel, pathLabel, hlen, hforks]
    obtain rfl := inj_on_of_nodup_map hlabels he he' hsame
    exact hunique is js _ hc hd
  · intro hinj
    refine Nodup.map_on (fun a ha b hb hab => ?_) (Nodup.of_map _ hkeys)
    obtain ⟨is, his, ha'⟩ := walkTree_path a ha
    obtain ⟨js, hjs, hb'⟩ := walkTree_path b hb
    obtain ⟨hlen, hforks⟩ := pathLabel_inj (ha'.symm.trans (hab.trans hb'))
    obtain rfl := hinj is js _ _ his hjs hlen hforks
    exact inj_on_of_nodup_map hkeys ha hb (Option.mem_unique his hjs)

/-- The versions of a file whose CIDs are distinct and descend from its root are normalized to the
same list in whatever order they are. -/
theorem normalizeVersions_perm {versions : List CatalogVersion}
    (hperm : versions.Perm file.versions) :
    normalizeVersions env { file with versions } = normalizeVersions env file := by
  have hmem : ∀ {v}, v ∈ versions ↔ v ∈ file.versions := hperm.mem_iff
  have hdesc : ∀ cid, Descends file cid → Descends { file with versions } cid := by
    intro cid h
    induction h with
    | root => exact .root
    | child hv hne _ ih => exact .child (hmem.mpr hv) hne ih
  obtain ⟨root, hr, hcid, heq⟩ := normalizeVersions_walk env hnd hroot hall
  obtain ⟨root', hr', hcid', heq'⟩ := @normalizeVersions_walk env { file with versions }
    ((hperm.map _).nodup_iff.mpr hnd) (hroot.imp fun v hv => ⟨hmem.mpr hv.1, hv.2⟩)
    fun v hv => hdesc _ (hall v (hmem.mp hv))
  have hfilled : (filled { file with versions }).Perm (filled file) := hperm.map _
  rw [← map_cid_filled] at hnd
  obtain rfl : root' = root := inj_on_of_nodup_map hnd (hfilled.mem_iff.mp hr') hr
    (hcid'.trans hcid.symm)
  have hwalk : walkTree env _ [] root' ['v', '1'] = _ := walkTree_perm hnd hfilled root' _
  rw [heq', heq, hwalk]

end Descends

/-- A root and its patch. -/
theorem normalizeVersions_perm_patch :
    let a := newVersion ['A'] ['A'] [] [] .initial [] ⟨[], [], 0, [], []⟩
    let b := newVersion ['B'] ['A'] ['A'] [] .patch [] ⟨[], [], 0, [], []⟩
    normalizeVersions ⟨stableSorter, id⟩ ⟨['A'], [], [], [], [b, a]⟩ =
      normalizeVersions ⟨stableSorter, id⟩ ⟨['A'], [], [], [], [a, b]⟩ := by
  intro a b
  let file : CatalogFile := ⟨['A'], [], [], [], [a, b]⟩
  have hall : ∀ v ∈ file.versions, Descends file v.cid := by
    refine forall_mem_cons.mpr ⟨.root, forall_mem_singleton.mpr ?_⟩
    exact .child (mem_cons_of_mem a mem_cons_self) (by decide) .root
  exact normalizeVersions_perm _ (by decide) ⟨a, mem_cons_self, rfl⟩ hall (.swap a b [])

/-- A version with one letter as its CID, below the root `r`. -/
def patch (c : Char) (p : Text) : CatalogVersion :=
  newVersion [c] ['r'] p [] .patch [] ⟨[], [], 0, [], []⟩

/-- The root and its first child have two children each. -/
def twoForks (vs : List CatalogVersion) : CatalogFile :=
  ⟨['r'], [], [], [],
    [patch 'r' [], patch 'a' ['r'], patch 'b' ['r'], patch 'c' ['a'], patch 'd' ['a']] ++ vs⟩

theorem descends_twoForks (vs : List CatalogVersion) :
    ∀ v ∈ (twoForks []).versions, Descends (twoForks vs) v.cid := by
  have ha := @Descends.child (twoForks vs) (patch 'a' ['r']) (by simp [twoForks]) (by decide) .root
  have hb := @Descends.child (twoForks vs) (patch 'b' ['r']) (by simp [twoForks]) (by decide) .root
  have hc := @Descends.child (twoForks vs) (patch 'c' ['a']) (by simp [twoForks]) (by decide) ha
  have hd := @Descends.child (twoForks vs) (patch 'd' ['a']) (by simp [twoForks]) (by decide) ha
  simpa only [twoForks, append_nil, forall_mem_cons] using ⟨.root, ha, hb, hc, hd, by simp⟩

/-- The branch off the root ends at once. -/
theorem versionLabels_nodup_iff_two_forks :
    BranchesApart (childCids ⟨stableSorter, id⟩ (filled (twoForks []))) ['r'] :=
  (versionLabels_nodup_iff _ (by decide) ⟨patch 'r' [], .head _, rfl⟩ (descends_twoForks [])
    (by decide)).mp (by decide)

/-- The root and its first child fork: the second child of the latter and the first one of
its sibling are both `v3.1`. -/
theorem versionLabels_collide :
    let file := twoForks [patch 'e' ['b']]
    (file.versions.map CatalogVersion.cid).Nodup ∧ (∃ v ∈ file.versions, v.cid = file.rootCid) ∧
      (∀ v ∈ file.versions, Descends file v.cid) ∧
      ¬((normalizeVersions ⟨stableSorter, id⟩ file).versions.map
        CatalogVersion.versionLabel).Nodup := by
  refine ⟨by decide, ⟨patch 'r' [], .head _, rfl⟩, ?_, by decide⟩
  have hforks := descends_twoForks [patch 'e' ['b']]
  refine forall_mem_append.mpr ⟨hforks, forall_mem_singleton.mpr ?_⟩
  exact .child (by simp [twoForks]) (by decide) (hforks (patch 'b' ['r']) (by simp [twoForks]))

/-! ## Labels in a tree -/

namespace NormalizeLemmas

variable {env : CatalogEnv}

theorem link_mem (hv : v ∈ filled file) : link v ∈ links file := by
  rw [links, ← map_link_filled]
  exact mem_map_of_mem hv

theorem mem_link {e : Text × Option Text} (he : e ∈ links file) :
    ∃ v ∈ filled file, link v = e := by
  rw [links, ← map_link_filled] at he
  exact mem_map.mp he

theorem nodup_cids (htree : RootedTree file.rootCid (links file)) :
    ((filled file).map CatalogVersion.cid).Nodup := by
  have hnd := htree.nodup
  rw [links, ← map_link_filled, Multiset.map_coe, Multiset.coe_nodup, map_map] at hnd
  exact hnd

section Tree

variable (htree : RootedTree file.rootCid (links file))
  (hcids : ∀ v ∈ file.versions, IsCid v.cid)
include htree hcids

/-- In a tree the previous CID of a version is trimmed, as it is a CID. -/
theorem trim_previousCid (hv : v ∈ filled file) : trimSpace v.previousCid = v.previousCid := by
  by_cases hprev : v.previousCid = []
  · rw [hprev]
    rfl
  · have hmem := link_mem hv
    rw [link, if_neg hprev] at hmem
    obtain ⟨o, ho⟩ := htree.parent_mem hmem
    obtain ⟨w, hw, hwl⟩ := mem_link ho
    obtain ⟨w', hw', rfl⟩ := mem_map.mp hw
    have hcid : w'.cid = v.previousCid := congrArg Prod.fst hwl
    rw [← hcid]
    exact (hcids w' hw').2

theorem depth_descend {c : Text} {is : List Nat}
    (h : descend (childCids env (filled file)) file.rootCid is = some c) :
    Depth file.rootCid (links file) c is.length := by
  induction is using reverseRecOn generalizing c with
  | nil =>
    cases h
    exact .root htree.root_mem
  | append_singleton is i ih =>
    obtain ⟨p, hp, hc⟩ := descend_snoc.mp h
    obtain ⟨v, hv, rfl⟩ := mem_map.mp (mem_of_getElem? hc)
    obtain ⟨hmem, hne, rfl⟩ := mem_children.mp hv
    rw [trim_previousCid htree hcids hmem] at hne hp
    have hlink := link_mem hmem
    rw [link, if_neg hne] at hlink
    rw [length_append]
    exact .child hlink (ih hp)

theorem descends_tree : ∀ v ∈ file.versions, Descends file v.cid := by
  -- By induction on the distance from the root.
  have hall : ∀ k d, Depth file.rootCid (links file) k d → Descends file k := by
    intro k d hd
    induction hd with
    | root => exact .root
    | @child k p d hlink _ ih =>
      obtain ⟨v, hv, hvl⟩ := mem_link hlink
      have hvk : v.cid = k := congrArg Prod.fst hvl
      subst hvk
      obtain ⟨hne, hp⟩ := Option.ite_none_left_eq_some.mp (congrArg Prod.snd hvl)
      rw [← trim_previousCid htree hcids hv] at hne hp
      obtain ⟨w, hw, rfl⟩ := mem_map.mp hv
      exact @Descends.child file w hw hne (Option.some.inj hp ▸ ih)
  intro v hv
  obtain ⟨d, hd⟩ := htree.depth _ (link_mem (mem_map_of_mem hv))
  exact hall v.cid d hd

end Tree

end NormalizeLemmas

/-- In a tree, the number before the first dot of a label is one more than the
version's distance from the root. -/
theorem generation_normalizeVersions (env : CatalogEnv)
    (htree : RootedTree file.rootCid (links file))
    (hcids : ∀ v ∈ file.versions, IsCid v.cid)
    (hv : v ∈ (normalizeVersions env file).versions) {d : Nat}
    (hd : Depth file.rootCid (links file) v.cid d) :
    generation v.versionLabel = some ((d : Int) + 1) := by
  obtain ⟨w, hw, hwl⟩ := mem_link htree.root_mem
  obtain ⟨w', hw', rfl⟩ := mem_map.mp hw
  have hroot : ∃ v ∈ file.versions, v.cid = file.rootCid := ⟨w', hw', congrArg Prod.fst hwl⟩
  obtain ⟨root, hmem, hcid, heq⟩ := normalizeVersions_walk env
    (map_cid_filled file ▸ nodup_cids htree) hroot (descends_tree htree hcids)
  rw [heq] at hv
  obtain ⟨e, he, rfl⟩ := mem_map.mp (stableSort_perm.mem_iff.mp hv)
  obtain ⟨is, hpath, hlabel⟩ := walkTree_path e he
  have hkey := ((walkTree_spec .nil env hmem ['v', '1']).1.valid e he).2
  rw [show (relabel _ e).cid = e.1 from hkey.symm] at hd
  cases htree.depth_unique hd (depth_descend htree hcids (hcid ▸ hpath))
  show generation e.2.2 = _
  rw [hlabel, pathLabel, generation_format]

end OpenDsn.Api
