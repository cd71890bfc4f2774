import Mathlib.Data.Multiset.Bind
import OpenDsn.Api.Normalize
import OpenDsn.Lib.Run

/-!
# Catalogs over runs of uploads

The outline of a catalog says which files there are, by their root CIDs, and
how the versions of each file are linked; order, labels and the other fields
are left out. The two recording functions act on the outline by simple rules
(`outline_recordInitialVersion`, `outline_recordPatchVersion`).

* `catalog_files_are_trees`: whatever is uploaded, every file is a tree of
  versions with labels by distance from the root;
* `uniqueCids_iff_keepsUnique`: each CID has one place in the catalog exactly as
  long as no upload puts a CID into a second file.
-/

namespace OpenDsn.Api

open Lib Lib.Text NormalizeLemmas List

/-! ## Outlines -/

abbrev Outline := Multiset (Text × Multiset (Text × Option Text))

def outline (catalog : Catalog) : Outline :=
  ↑(catalog.files.map fun file => (file.rootCid, links file))

def nodes (ls : Multiset (Text × Option Text)) : Multiset Text := ls.map Prod.fst

/-- Every file is a tree of CIDs. -/
def Sound (o : Outline) : Prop :=
  ∀ x ∈ o, RootedTree x.1 x.2 ∧ ∀ k ∈ nodes x.2, IsCid k

variable {env : CatalogEnv} {catalog : Catalog} {root cid previous k : Text}
  {x : Text × Multiset (Text × Option Text)} {file : CatalogFile} {o o' : Outline} {i j : Nat}
  {versions : List CatalogVersion} {files : List CatalogFile}

namespace CatalogLemmas

theorem mem_outline :
    x ∈ outline catalog ↔ ∃ file ∈ catalog.files, (file.rootCid, links file) = x := by
  unfold outline
  rw [Multiset.mem_coe, mem_map]

theorem mem_nodes : k ∈ nodes (links file) ↔ ∃ v ∈ file.versions, v.cid = k := by
  unfold nodes links
  rw [Multiset.map_coe, Multiset.mem_coe, map_map, mem_map]
  rfl

theorem nodup_of_tree (h : RootedTree file.rootCid (links file)) :
    (file.versions.map CatalogVersion.cid).Nodup := by
  rw [← map_cid_filled]
  exact nodup_cids h

theorem outline_normalize (env : CatalogEnv) (h : Sound (outline catalog)) :
    outline (normalize env catalog) = outline catalog := by
  refine Multiset.coe_eq_coe.mpr (((env.sorter.perm _ _).map _).trans (Perm.of_eq ?_))
  rw [map_map]
  refine map_congr_left fun file hfile => ?_
  have htree := (h _ (mem_outline.mpr ⟨file, hfile, rfl⟩)).1
  show ((normalizeVersions env file).rootCid, links (normalizeVersions env file)) = _
  rw [rootCid_normalizeVersions, links_normalizeVersions env (nodup_of_tree htree)]

theorem coe_middle {α : Type} (a b : List α) (x : α) :
    ((a ++ x :: b : List α) : Multiset α) = x ::ₘ ((a ++ b : List α) : Multiset α) := by
  exact Multiset.coe_eq_coe.mpr perm_middle

/-- Changing one file changes its part of the outline. -/
theorem outline_modify (h : catalog.files[i]? = some file) :
    ∃ rest : Outline, outline catalog = (file.rootCid, links file) ::ₘ rest ∧
      ∀ f : CatalogFile → CatalogFile, outline { files := catalog.files.modify i f } =
        ((f file).rootCid, links (f file)) ::ₘ rest := by
  obtain ⟨hi, rfl⟩ := List.getElem?_eq_some_iff.mp h
  refine ⟨↑((catalog.files.take i ++ catalog.files.drop (i + 1)).map
    fun file => (file.rootCid, links file)), ?_, fun f => ?_⟩
  · have hsplit : catalog.files =
        catalog.files.take i ++ catalog.files[i] :: catalog.files.drop (i + 1) := by
      rw [getElem_cons_drop, take_append_drop]
    unfold outline
    conv_lhs => rw [hsplit]
    rw [map_append, map_cons, coe_middle, map_append]
  · unfold outline
    rw [modify_eq_take_cons_drop hi, map_append, map_cons, coe_middle,
      map_append]

/-! ## Finding versions -/

theorem findVersionIndex_none
    (h : findVersionIndex versions cid = none) : ∀ v ∈ versions, v.cid ≠ cid := by
  intro v hv
  have hno := findIdx?_eq_none_iff.mp h v hv
  exact of_decide_eq_false hno

theorem go_some {n : Nat} (h : findVersionLocation.go cid n files = some (i, j)) :
    ∃ k file v, i = n + k ∧ files[k]? = some file ∧ file.versions[j]? = some v ∧ v.cid = cid := by
  induction files generalizing n with
  | nil => cases h
  | cons file rest ih =>
    unfold findVersionLocation.go at h
    split at h
    · next j' hj =>
      cases h
      obtain ⟨hlt, hp, -⟩ := findIdx?_eq_some_iff_getElem.mp hj
      exact ⟨0, file, _, rfl, rfl, getElem?_eq_getElem hlt, of_decide_eq_true hp⟩
    · obtain ⟨k, file', v, rfl, hk, hv, hcid⟩ := ih h
      exact ⟨k + 1, file', v, by omega, hk, hv, hcid⟩

theorem go_none {n : Nat} (h : findVersionLocation.go cid n files = none) :
    ∀ file ∈ files, ∀ v ∈ file.versions, v.cid ≠ cid := by
  induction files generalizing n with
  | nil => exact forall_mem_nil _
  | cons file rest ih =>
    unfold findVersionLocation.go at h
    split at h
    · cases h
    next hj =>
    exact forall_mem_cons.mpr ⟨findVersionIndex_none hj, ih h⟩

theorem findVersionLocation_some (h : findVersionLocation catalog cid = some (i, j)) :
    ∃ file v, catalog.files[i]? = some file ∧ file.versions[j]? = some v ∧ v.cid = cid := by
  obtain ⟨k, file, v, rfl, hk, hv, hcid⟩ := go_some h
  rw [zero_add]
  exact ⟨file, v, hk, hv, hcid⟩

/-- A location is found exactly for the CIDs in the outline. -/
theorem findVersionLocation_isSome (hx : x ∈ outline catalog) (hcid : cid ∈ nodes x.2) :
    ∃ i j, findVersionLocation catalog cid = some (i, j) := by
  cases hl : findVersionLocation catalog cid with
  | some l => exact ⟨l.1, l.2, rfl⟩
  | none =>
    obtain ⟨file, hf, rfl⟩ := mem_outline.mp hx
    obtain ⟨v, hv, hc⟩ := mem_nodes.mp hcid
    exact absurd hc (go_none hl file hf v hv)

/-! ## The two recording functions on outlines -/

theorem sound_cons {rest : Outline} :
    Sound (x ::ₘ rest) ↔ (RootedTree x.1 x.2 ∧ ∀ k ∈ nodes x.2, IsCid k) ∧ Sound rest := by
  constructor
  · intro h
    exact ⟨h x (Multiset.mem_cons_self _ _), fun y hy => h y (Multiset.mem_cons_of_mem hy)⟩
  · rintro ⟨hx, hrest⟩ y hy
    rcases Multiset.mem_cons.mp hy with rfl | hy
    · exact hx
    · exact hrest y hy

theorem sound_newFile (hroot : IsCid root) (h : Sound o) :
    Sound ((root, {(root, none)}) ::ₘ o) := by
  refine sound_cons.mpr ⟨⟨.single root, fun k hk => ?_⟩, h⟩
  rw [nodes, Multiset.map_singleton, Multiset.mem_singleton] at hk
  exact hk ▸ hroot

/-- A file of the catalog that is a tree has its root version, so recording
the root again leaves its links alone. -/
theorem links_refreshFile {upload : Upload}
    (hroot : file.rootCid = root) (htree : RootedTree file.rootCid (links file)) :
    links (refreshFile env root upload file) = links file := by
  obtain ⟨v, hv, hcid⟩ := mem_nodes.mp (Multiset.mem_map_of_mem Prod.fst htree.root_mem)
  have hfound : (findVersionIndex file.versions root).isSome = true := by
    cases hf : findVersionIndex file.versions root with
    | some j => rfl
    | none => exact absurd (hcid.trans hroot) (findVersionIndex_none hf v hv)
  unfold links refreshFile
  simp only [hfound, if_true]

/-- How an initial upload changes the outline. -/
inductive InitialEffect (root : Text) (o o' : Outline) : Prop
  | known (hroot : ∃ x ∈ o, x.1 = root) (heq : o' = o)
  | added (hroot : ∀ x ∈ o, x.1 ≠ root) (heq : o' = (root, {(root, none)}) ::ₘ o)

theorem InitialEffect.sound (he : InitialEffect root o o')
    (hroot : IsCid root) (h : Sound o) : Sound o' := by
  cases he with
  | known _ heq => exact heq ▸ h
  | added _ heq => exact heq ▸ sound_newFile hroot h

theorem outline_upsert (env : CatalogEnv) (upload : Upload) (hroot : IsCid root)
    (h : Sound (outline catalog)) : InitialEffect root (outline catalog)
      (outline (upsertInitialVersion env catalog root upload).1) := by
  unfold upsertInitialVersion
  split
  · next i hi =>
    obtain ⟨hlt, hcid, -⟩ := findIdx?_eq_some_iff_getElem.mp hi
    have hfile : catalog.files[i]? = some catalog.files[i] := getElem?_eq_getElem hlt
    have hr : catalog.files[i].rootCid = root := of_decide_eq_true hcid
    obtain ⟨rest, heq, hmod⟩ := outline_modify hfile
    have htree := (h _ (heq ▸ Multiset.mem_cons_self _ _)).1
    have hsame : outline { files := catalog.files.modify i (refreshFile env root upload) } =
        outline catalog := by
      rw [hmod, links_refreshFile hr htree, heq]
      rfl
    refine .known ⟨_, heq ▸ Multiset.mem_cons_self _ _, hr⟩ ?_
    rw [outline_normalize env (hsame ▸ h), hsame]
  · next hi =>
    have hnew : outline { files := catalog.files ++ [newFile env root upload] } =
        (root, {(root, none)}) ::ₘ outline catalog := by
      unfold outline
      rw [map_append, map_singleton, coe_middle, append_nil]
      rfl
    refine .added (fun x hx => ?_) ?_
    · obtain ⟨file, hfile, rfl⟩ := mem_outline.mp hx
      exact of_decide_eq_false (findIdx?_eq_none_iff.mp hi file hfile)
    · rw [outline_normalize env (hnew ▸ sound_newFile hroot h), hnew]

/-- How a patch changes the outline: it joins the file where the previous
version was found, unless that file has it already. -/
inductive PatchEffect (cid previous : Text) (o o' : Outline) : Prop
  | known {r : Text} {ls : Multiset (Text × Option Text)} (hfile : (r, ls) ∈ o)
      (hprev : previous ∈ nodes ls) (hcid : cid ∈ nodes ls) (heq : o' = o)
  | added {r : Text} {ls : Multiset (Text × Option Text)} {rest : Outline}
      (hfile : o = (r, ls) ::ₘ rest) (hprev : previous ∈ nodes ls) (hcid : cid ∉ nodes ls)
      (heq : o' = (r, (cid, some previous) ::ₘ ls) ::ₘ rest)

section

variable (he : PatchEffect cid previous o o')
include he

theorem PatchEffect.sound (hcid : IsCid cid) (h : Sound o) : Sound o' := by
  cases he with
  | known _ _ _ heq => exact heq ▸ h
  | @added r ls rest hfile hprev hfresh heq =>
    rw [hfile] at h
    obtain ⟨⟨htree, hcids⟩, hrest⟩ := sound_cons.mp h
    obtain ⟨⟨_, o'⟩, hp, rfl⟩ := Multiset.mem_map.mp hprev
    have hk : ∀ o', (cid, o') ∉ ls := fun o' hmem => hfresh (Multiset.mem_map_of_mem Prod.fst hmem)
    rw [heq]
    refine sound_cons.mpr ⟨⟨htree.grow hp hk, fun k hk => ?_⟩, hrest⟩
    rw [nodes, Multiset.map_cons] at hk
    rcases Multiset.mem_cons.mp hk with rfl | hk
    · exact hcid
    · exact hcids k hk

theorem PatchEffect.cid_mem : ∃ x ∈ o', cid ∈ nodes x.2 := by
  cases he with
  | known hfile _ hcid heq => exact ⟨_, heq ▸ hfile, hcid⟩
  | added _ _ _ heq =>
    refine ⟨_, heq ▸ Multiset.mem_cons_self _ _, ?_⟩
    rw [nodes, Multiset.map_cons]
    exact Multiset.mem_cons_self _ _

end

theorem links_addVersion {previous : CatalogVersion} (upload : Upload) (hprev : previous.cid ≠ []) :
    links (addVersion (patchVersion file cid previous upload) file) =
      (cid, some previous.cid) ::ₘ links file := by
  unfold links addVersion
  rw [map_append, map_singleton, coe_middle, append_nil]
  have hlink : link (patchVersion file cid previous upload) = (cid, some previous.cid) := by
    show (cid, if previous.cid = [] then none else some previous.cid) = _
    rw [if_neg hprev]
  rw [hlink]

/-- A location that was found has an entry, and the file there is in the
outline. -/
theorem entryAt_location {location : Nat × Nat}
    (h : findVersionLocation catalog cid = some location) :
    ∃ file version, entryAt catalog location = some (file, version) ∧ version.cid = cid ∧
      catalog.files[location.1]? = some file ∧ version ∈ file.versions := by
  obtain ⟨file, v, hfile, hv, rfl⟩ := findVersionLocation_some h
  refine ⟨file, v, ?_, rfl, hfile, mem_of_getElem? hv⟩
  unfold entryAt
  simp only [hfile, hv, Option.map_some]

theorem outline_patched {previous : CatalogVersion}
    (upload : Upload) (hfile : catalog.files[i]? = some file) (hprev : previous ∈ file.versions)
    (hcid : IsCid cid) (hfresh : cid ∉ nodes (links file)) (h : Sound (outline catalog)) :
    PatchEffect cid previous.cid (outline catalog)
      (outline (normalize env
        (addVersionAt catalog i (patchVersion file cid previous upload)))) := by
  obtain ⟨rest, heq, hmod⟩ := outline_modify hfile
  have hmem : previous.cid ∈ nodes (links file) := mem_nodes.mpr ⟨previous, hprev, rfl⟩
  obtain ⟨-, hcids⟩ := h _ (heq ▸ Multiset.mem_cons_self _ _)
  have heff : PatchEffect cid previous.cid (outline catalog)
      (outline (addVersionAt catalog i (patchVersion file cid previous upload))) := by
    refine .added heq hmem hfresh ?_
    rw [addVersionAt, hmod, links_addVersion upload (hcids _ hmem).1]
    rfl
  rwa [outline_normalize env (heff.sound hcid h)]

/-- The spec of `appendPatchVersion`: it fails exactly when the previous
version is unknown. -/
theorem appendPatchVersion_cases (env : CatalogEnv) (previousCid : Text)
    (upload : Upload) (hcid : IsCid cid) (h : Sound (outline catalog)) :
    ((∀ x ∈ outline catalog, previousCid ∉ nodes x.2) ∧
        appendPatchVersion env catalog cid previousCid upload =
          .error (.previousMissing previousCid)) ∨
      ∃ catalog' entry,
        appendPatchVersion env catalog cid previousCid upload = .ok (catalog', entry) ∧
        PatchEffect cid previousCid (outline catalog) (outline catalog') := by
  unfold appendPatchVersion
  cases hloc : findVersionLocation catalog previousCid with
  | none =>
    refine .inl ⟨fun x hx hmem => ?_, rfl⟩
    obtain ⟨i, j, hij⟩ := findVersionLocation_isSome hx hmem
    rw [hloc] at hij
    cases hij
  | some location =>
    obtain ⟨file, previous, hentry, rfl, hfile, hprev⟩ := entryAt_location hloc
    refine .inr ?_
    simp only [hentry]
    cases hfind : file.versions.find? (·.cid = cid) with
    | some version =>
      have hv := find?_some hfind
      have hx : (file.rootCid, links file) ∈ outline catalog :=
        mem_outline.mpr ⟨file, mem_of_getElem? hfile, rfl⟩
      exact ⟨catalog, (file, version), rfl, .known hx (mem_nodes.mpr ⟨previous, hprev, rfl⟩)
        (mem_nodes.mpr ⟨version, mem_of_find?_eq_some hfind, of_decide_eq_true hv⟩) rfl⟩
    | none =>
      have hfresh : cid ∉ nodes (links file) := by
        intro hmem
        obtain ⟨v, hv, hvc⟩ := mem_nodes.mp hmem
        have hno := find?_eq_none.mp hfind v hv
        exact hno (decide_eq_true hvc)
      generalize hupd : normalize env
        (addVersionAt catalog location.1 (patchVersion file cid previous upload)) = updated
      have heff : PatchEffect cid previous.cid (outline catalog) (outline updated) :=
        hupd ▸ outline_patched upload hfile hprev hcid hfresh h
      -- The new version is found again after normalization.
      obtain ⟨x, hx, hmem⟩ := heff.cid_mem
      obtain ⟨i, j, hij⟩ := findVersionLocation_isSome hx hmem
      obtain ⟨file', version', hentry', -⟩ := entryAt_location hij
      refine ⟨updated, (file', version'), ?_, heff⟩
      simp only [hij, Option.bind_some, hentry']

end CatalogLemmas

open CatalogLemmas

/-- Recording an initial version adds a file of one version, unless there is a
file with this root. -/
theorem outline_recordInitialVersion (env : CatalogEnv) {stored : Catalog}
    (upload : Upload) (hroot : IsCid root) (h : Sound (outline stored)) :
    InitialEffect root (outline stored)
      (outline (recordInitialVersion env stored root upload).1) := by
  have hload := outline_normalize env h
  have heff := outline_upsert env upload hroot (hload.symm ▸ h)
  show InitialEffect root _
    (outline (normalize env (upsertInitialVersion env (normalize env stored) root upload).1))
  rw [outline_normalize env (heff.sound hroot (hload.symm ▸ h))]
  exact hload ▸ heff

/-- Recording a patch adds it to the file where its previous version was found,
and fails without such a file. -/
theorem outline_recordPatchVersion (env : CatalogEnv) {stored : Catalog}
    (previousCid : Text) (upload : Upload) (hcid : IsCid cid) (h : Sound (outline stored)) :
    ((∀ x ∈ outline stored, previousCid ∉ nodes x.2) ∧
        recordPatchVersion env stored cid previousCid upload =
          .error (.previousMissing previousCid)) ∨
      ∃ catalog entry, recordPatchVersion env stored cid previousCid upload =
          .ok (normalize env catalog, entry) ∧ Sound (outline catalog) ∧
        PatchEffect cid previousCid (outline stored) (outline (normalize env catalog)) := by
  have hload := outline_normalize env h
  have hsound : Sound (outline (normalize env stored)) := hload.symm ▸ h
  unfold recordPatchVersion
  rcases appendPatchVersion_cases env previousCid upload hcid hsound with
    ⟨hno, herr⟩ | ⟨catalog, entry, hok, heff⟩
  · rw [hload] at hno
    exact .inl ⟨hno, by rw [herr]⟩
  · have hnew := heff.sound hcid hsound
    refine .inr ⟨catalog, entry, by rw [hok], hnew, ?_⟩
    rw [outline_normalize env hnew, ← hload]
    exact heff

/-! ## Runs -/

/-- A call of one of the two recording functions. The CIDs to record are as
`handleClientDeal` passes them. -/
inductive CatalogCall
  | initial (root : { t : Text // IsCid t }) (upload : Upload)
  | patch (cid : { t : Text // IsCid t }) (previousCid : Text) (upload : Upload)

/-- The stored catalog after a call. -/
def catalogStep (env : CatalogEnv) (stored : Catalog) : CatalogCall → Catalog
  | .initial root upload => (recordInitialVersion env stored root upload).1
  | .patch cid previousCid upload =>
      match recordPatchVersion env stored cid previousCid upload with
      | .ok (catalog, _) => catalog
      | .error _ => stored

/-- A file whose versions form a tree below its root CID. -/
structure VersionTree (file : CatalogFile) : Prop where
  distinct : (file.versions.map CatalogVersion.cid).Nodup
  root : ∃! v, v ∈ file.versions ∧ v.cid = file.rootCid
  root_previous : ∀ v ∈ file.versions, v.cid = file.rootCid → v.previousCid = []
  previous : ∀ v ∈ file.versions, v.cid ≠ file.rootCid →
    ∃ p ∈ file.versions, p.cid = v.previousCid ∧ p.cid ≠ v.cid
  reaches : ∀ v ∈ file.versions, ∃ d, Depth file.rootCid (links file) v.cid d
  labels : ∀ v ∈ file.versions, ∀ d, Depth file.rootCid (links file) v.cid d →
    generation v.versionLabel = some ((d : Int) + 1)

namespace CatalogLemmas

theorem versionTree_of_tree (h : RootedTree file.rootCid (links file))
    (hlabels : ∀ v ∈ file.versions, ∀ d, Depth file.rootCid (links file) v.cid d →
      generation v.versionLabel = some ((d : Int) + 1)) : VersionTree file := by
  have hlink : ∀ v ∈ file.versions, link v ∈ links file := fun v hv => mem_map_of_mem hv
  have hdistinct := nodup_of_tree h
  refine ⟨hdistinct, ?_, ?_, ?_, fun v hv => h.depth _ (hlink v hv), hlabels⟩
  · obtain ⟨v, hv, hvl⟩ := mem_map.mp h.root_mem
    refine ⟨v, ⟨hv, congrArg Prod.fst hvl⟩, fun w ⟨hw, hwc⟩ => ?_⟩
    exact inj_on_of_nodup_map hdistinct hw hv (hwc.trans (congrArg Prod.fst hvl).symm)
  · intro v hv hroot
    have hmem := hlink v hv
    rw [link, hroot] at hmem
    have hnone := link_unique h.nodup hmem h.root_mem
    split at hnone
    · assumption
    · cases hnone
  · intro v hv hne
    obtain ⟨p, o, hprev, hp, hpv⟩ := h.parent (hlink v hv) hne
    obtain ⟨w, hw, hwl⟩ := mem_map.mp hp
    have hwc : w.cid = p := congrArg Prod.fst hwl
    split at hprev
    · cases hprev
    · exact ⟨w, hw, hwc.trans (Option.some.inj hprev).symm, hwc ▸ hpv⟩

/-- The invariant of a run. -/
structure Stored (catalog : Catalog) : Prop where
  sound : Sound (outline catalog)
  trees : ∀ file ∈ catalog.files, VersionTree file

theorem stored_empty : Stored ⟨[]⟩ where
  sound _ hx := absurd hx (Multiset.notMem_zero _)
  trees := forall_mem_nil _

/-- What was normalized before it was written satisfies the invariant. -/
theorem stored_normalize (env : CatalogEnv) (h : Sound (outline catalog)) :
    Stored (normalize env catalog) := by
  have hsame := outline_normalize env h
  refine ⟨hsame.symm ▸ h, fun file hfile => ?_⟩
  obtain ⟨raw, hraw, rfl⟩ := mem_map.mp ((env.sorter.perm _ _).mem_iff.mp hfile)
  obtain ⟨htree, hcids⟩ := h _ (mem_outline.mpr ⟨raw, hraw, rfl⟩)
  have hlinks := links_normalizeVersions env (nodup_of_tree htree)
  have hroot := rootCid_normalizeVersions env raw
  refine versionTree_of_tree (by rw [hroot, hlinks]; exact htree) fun v hv d hd => ?_
  rw [hroot, hlinks] at hd
  exact generation_normalizeVersions env htree
    (fun w hw => hcids _ (mem_nodes.mpr ⟨w, hw, rfl⟩)) hv hd

theorem stored_catalogStep (call : CatalogCall) (h : Stored catalog) :
    Stored (catalogStep env catalog call) := by
  cases call with
  | initial root upload =>
    have hload : Sound (outline (normalize env catalog)) :=
      (outline_normalize env h.sound).symm ▸ h.sound
    exact stored_normalize env ((outline_upsert env upload root.2 hload).sound root.2 hload)
  | patch cid previousCid upload =>
    unfold catalogStep
    rcases outline_recordPatchVersion env previousCid upload cid.2 h.sound with
      ⟨-, herr⟩ | ⟨catalog', entry, hok, hsound, -⟩
    · simp only [herr]
      exact h
    · simp only [hok]
      exact stored_normalize env hsound

end CatalogLemmas

/-- After any sequence of uploads, every file of the catalog is a tree. -/
theorem catalog_files_are_trees (env : CatalogEnv) (calls : List CatalogCall) :
    ∀ file ∈ (calls.foldl (catalogStep env) ⟨[]⟩).files, VersionTree file := by
  suffices hrun : ∀ catalog, Stored catalog → Stored (calls.foldl (catalogStep env) catalog) from
    (hrun _ stored_empty).trees
  induction calls with
  | nil => exact fun catalog h => h
  | cons call calls ih => exact fun catalog h => ih _ (stored_catalogStep call h)

/-! ### A run on one-letter CIDs -/

/-- A stable sort, and no letters to lower. -/
def plainEnv : CatalogEnv := ⟨stableSorter, id⟩

def cidA : { t : Text // IsCid t } := ⟨['A'], by decide, by decide⟩

def cidB : { t : Text // IsCid t } := ⟨['B'], by decide, by decide⟩

def someUpload : Upload := ⟨[], ['f'], 1, ['m'], ['t']⟩

theorem catalog_files_are_trees_patch :
    ∃ file ∈ ([.initial cidA someUpload, .patch cidB ['A'] someUpload].foldl
        (catalogStep plainEnv) ⟨[]⟩).files,
      file.versions.map (·.cid) = [['A'], ['B']] ∧ VersionTree file := by
  obtain ⟨file, hfile, hcids⟩ : ∃ file ∈ ([.initial cidA someUpload,
      .patch cidB ['A'] someUpload].foldl (catalogStep plainEnv) ⟨[]⟩).files,
        file.versions.map (·.cid) = [['A'], ['B']] := by decide
  exact ⟨file, hfile, hcids, catalog_files_are_trees plainEnv _ file hfile⟩

/-! ## One place for each CID -/

/-- Version `j` of file `i` has this CID. -/
def OccursAt (catalog : Catalog) (cid : Text) (i j : Nat) : Prop :=
  ∃ file v, catalog.files[i]? = some file ∧ file.versions[j]? = some v ∧ v.cid = cid

/-- Every occurrence of a CID is the one `findVersionLocation` returns, so no
two files have it, and a patch joins the file its predecessor belongs to. -/
def UniqueCids (catalog : Catalog) : Prop :=
  ∀ cid i j, OccursAt catalog cid i j → findVersionLocation catalog cid = some (i, j)

/-- An initial upload of a CID that is a version already is one of a known
root; a patch whose predecessor is known brings a CID that is new or a version
of the predecessor's file. -/
def KeepsUnique (catalog : Catalog) : CatalogCall → Prop
  | .initial root _ => ∀ file ∈ catalog.files,
      (∃ v ∈ file.versions, v.cid = root) → file.rootCid = root
  | .patch cid previousCid _ =>
      (∃ file ∈ catalog.files, ∃ v ∈ file.versions, v.cid = previousCid) →
        ∀ file ∈ catalog.files, (∃ v ∈ file.versions, v.cid = cid) →
          ∃ v ∈ file.versions, v.cid = previousCid

namespace CatalogLemmas

open CatalogVersion

/-- All CIDs of an outline, file by file. -/
def cids (o : Outline) : Multiset Text := o.bind fun x => nodes x.2

theorem cids_outline : cids (outline catalog) =
    ↑(catalog.files.flatMap fun file => file.versions.map CatalogVersion.cid) := by
  unfold cids outline
  rw [← Multiset.map_coe, Multiset.bind_map, ← Multiset.coe_bind]
  refine Multiset.bind_congr fun file _ => ?_
  rw [nodes, links, Multiset.map_coe, map_map]
  rfl

theorem getElem?_cid {v : CatalogVersion} (h : file.versions[j]? = some v) :
    (file.versions.map CatalogVersion.cid)[j]? = some v.cid := by
  rw [getElem?_map, h]
  rfl

theorem uniqueCids_iff (h : Sound (outline catalog)) :
    UniqueCids catalog ↔ (cids (outline catalog)).Nodup := by
  rw [cids_outline, Multiset.coe_nodup, nodup_flatMap]
  have hnodup : ∀ file ∈ catalog.files, (file.versions.map cid).Nodup :=
    fun file hf => nodup_of_tree (h _ (mem_outline.mpr ⟨file, hf, rfl⟩)).1
  constructor
  · intro huniq
    refine ⟨hnodup, pairwise_iff_getElem.mpr fun i i' hi hi' hlt => ?_⟩
    intro cid hmem hmem'
    obtain ⟨v, hv, hvc⟩ := mem_map.mp hmem
    obtain ⟨v', hv', hvc'⟩ := mem_map.mp hmem'
    obtain ⟨j, hj⟩ := List.getElem?_of_mem hv
    obtain ⟨j', hj'⟩ := List.getElem?_of_mem hv'
    have hloc := huniq cid i j ⟨_, v, List.getElem?_eq_getElem hi, hj, hvc⟩
    rw [huniq cid i' j' ⟨_, v', List.getElem?_eq_getElem hi', hj', hvc'⟩] at hloc
    cases hloc
    exact absurd hlt (lt_irrefl _)
  · rintro ⟨-, hdisj⟩ cid i j ⟨file, v, hfile, hv, rfl⟩
    have hx : (file.rootCid, links file) ∈ outline catalog :=
      mem_outline.mpr ⟨file, mem_of_getElem? hfile, rfl⟩
    have hmem : v.cid ∈ nodes (links file) := mem_nodes.mpr ⟨v, mem_of_getElem? hv, rfl⟩
    obtain ⟨i', j', hloc⟩ := findVersionLocation_isSome hx hmem
    obtain ⟨file', v', hfile', hv', hvc⟩ := findVersionLocation_some hloc
    have hcv : v.cid ∈ file.versions.map cid :=
      mem_map_of_mem (mem_of_getElem? hv)
    have hcv' : v.cid ∈ file'.versions.map cid :=
      hvc ▸ mem_map_of_mem (mem_of_getElem? hv')
    have hnd := hnodup file (mem_of_getElem? hfile)
    obtain ⟨hi, rfl⟩ := List.getElem?_eq_some_iff.mp hfile
    obtain ⟨hi', rfl⟩ := List.getElem?_eq_some_iff.mp hfile'
    have hij : i' = i := by
      rcases Nat.lt_trichotomy i' i with hlt | heq | hgt
      · exact absurd hcv (pairwise_iff_getElem.mp hdisj _ _ hi' hi hlt hcv')
      · exact heq
      · exact absurd hcv' (pairwise_iff_getElem.mp hdisj _ _ hi hi' hgt hcv)
    subst hij
    have hcj := getElem?_cid hv
    have hcj' := getElem?_cid hv'
    rw [hvc] at hcj'
    obtain ⟨hjl, -⟩ := List.getElem?_eq_some_iff.mp hcj
    rw [hloc, (List.getElem?_inj hjl hnd).mp (hcj.trans hcj'.symm)]

theorem file_unique (hnd : (cids o).Nodup)
    {y : Text × Multiset (Text × Option Text)} (hx : x ∈ o) (hy : y ∈ o)
    (hkx : k ∈ nodes x.2) (hky : k ∈ nodes y.2) : x = y := by
  obtain ⟨rest, rfl⟩ := Multiset.exists_cons_of_mem hx
  rw [cids, Multiset.cons_bind, Multiset.nodup_add] at hnd
  rcases Multiset.mem_cons.mp hy with rfl | hy
  · rfl
  · exact absurd (Multiset.mem_bind.mpr ⟨y, hy, hky⟩) (Multiset.disjoint_left.mp hnd.2.2 hkx)

theorem nodup_cids_cons (heq : cids o' = k ::ₘ cids o)
    (hnd : (cids o).Nodup) : (cids o').Nodup ↔ ∀ x ∈ o, k ∉ nodes x.2 := by
  rw [heq, Multiset.nodup_cons]
  constructor
  · rintro ⟨hk, -⟩ x hx hmem
    exact hk (Multiset.mem_bind.mpr ⟨x, hx, hmem⟩)
  · intro hno
    refine ⟨fun hk => ?_, hnd⟩
    obtain ⟨x, hx, hmem⟩ := Multiset.mem_bind.mp hk
    exact hno x hx hmem

theorem InitialEffect.nodup_iff (he : InitialEffect root o o')
    (h : Sound o) (hnd : (cids o).Nodup) :
    (cids o').Nodup ↔ ∀ x ∈ o, root ∈ nodes x.2 → x.1 = root := by
  cases he with
  | known hroot heq =>
    obtain ⟨y, hy, rfl⟩ := hroot
    refine ⟨fun _ x hx hmem => ?_, fun _ => heq ▸ hnd⟩
    have hroot : y.1 ∈ nodes y.2 := Multiset.mem_map_of_mem Prod.fst (h y hy).1.root_mem
    rw [file_unique hnd hx hy hmem hroot]
  | added hroot heq =>
    have hcids : cids o' = root ::ₘ cids o := by
      rw [heq, cids, Multiset.cons_bind, nodes, Multiset.map_singleton]
      exact Multiset.singleton_add _ _
    rw [nodup_cids_cons hcids hnd]
    exact ⟨fun hno x hx hmem => absurd hmem (hno x hx),
      fun hall x hx hmem => hroot x hx (hall x hx hmem)⟩

theorem PatchEffect.nodup_iff (he : PatchEffect cid previous o o') (hnd : (cids o).Nodup) :
    (cids o').Nodup ↔ ∀ x ∈ o, cid ∈ nodes x.2 → previous ∈ nodes x.2 := by
  cases he with
  | known hfile _ hcid heq =>
    refine ⟨fun _ x hx hmem => ?_, fun _ => heq ▸ hnd⟩
    rwa [file_unique hnd hx hfile hmem hcid]
  | @added r ls rest hfile hprev hcid heq =>
    have hcids : cids o' = cid ::ₘ cids o := by
      rw [heq, hfile, cids, cids, Multiset.cons_bind, Multiset.cons_bind, nodes,
        Multiset.map_cons, Multiset.cons_add]
      rfl
    have hmem : (r, ls) ∈ o := hfile ▸ Multiset.mem_cons_self _ _
    rw [nodup_cids_cons hcids hnd]
    refine ⟨fun hno x hx hc => absurd hc (hno x hx), fun hall x hx hc => ?_⟩
    -- The file of `x` would be the predecessor's, which does not have `cid`.
    rw [file_unique hnd hx hmem (hall x hx hc) hprev] at hc
    exact hcid hc

theorem forall_outline {p : Text × Multiset (Text × Option Text) → Prop} :
    (∀ x ∈ outline catalog, p x) ↔ ∀ file ∈ catalog.files, p (file.rootCid, links file) := by
  constructor
  · exact fun h file hf => h _ (mem_outline.mpr ⟨file, hf, rfl⟩)
  · rintro h x hx
    obtain ⟨file, hf, rfl⟩ := mem_outline.mp hx
    exact h file hf

/-- One call: uniqueness is kept exactly when the call meets the condition. -/
theorem uniqueCids_step (call : CatalogCall) (h : Stored catalog) (huniq : UniqueCids catalog) :
    UniqueCids (catalogStep env catalog call) ↔ KeepsUnique catalog call := by
  have hnd := (uniqueCids_iff h.sound).mp huniq
  rw [uniqueCids_iff (stored_catalogStep call h).sound]
  cases call with
  | initial root upload =>
    have heff := outline_recordInitialVersion env upload root.2 h.sound
    rw [show catalogStep env catalog (.initial root upload) =
      (recordInitialVersion env catalog root upload).1 from rfl, heff.nodup_iff h.sound hnd,
      forall_outline]
    simp only [mem_nodes]
    rfl
  | patch cid previousCid upload =>
    rcases outline_recordPatchVersion env previousCid upload cid.2 h.sound with
      ⟨hno, herr⟩ | ⟨catalog', entry, hok, -, heff⟩
    · have hsame : catalogStep env catalog (.patch cid previousCid upload) = catalog := by
        simp only [catalogStep, herr]
      rw [hsame]
      refine ⟨fun _ hprev => ?_, fun _ => hnd⟩
      obtain ⟨file, hf, hv⟩ := hprev
      exact absurd (mem_nodes.mpr hv) (forall_outline.mp hno file hf)
    · have hstep : catalogStep env catalog (.patch cid previousCid upload) =
          normalize env catalog' := by
        simp only [catalogStep, hok]
      rw [hstep, heff.nodup_iff hnd, forall_outline]
      simp only [mem_nodes]
      refine ⟨fun hall _ => hall, fun hkeep => hkeep ?_⟩
      obtain ⟨x, hx, hprev⟩ : ∃ x ∈ outline catalog, previousCid ∈ nodes x.2 := by
        cases heff with
        | known hfile hprev _ _ => exact ⟨_, hfile, hprev⟩
        | added hfile hprev _ _ => exact ⟨_, hfile ▸ Multiset.mem_cons_self _ _, hprev⟩
      obtain ⟨file, hf, rfl⟩ := mem_outline.mp hx
      exact ⟨file, hf, mem_nodes.mp hprev⟩

end CatalogLemmas

/-- In every run from an empty catalog, every CID has one place in every state
exactly when no call puts a CID into a second file. -/
theorem uniqueCids_iff_keepsUnique (env : CatalogEnv) {calls : List CatalogCall}
    {catalogs : List Catalog}
    (h : trace (fun catalog call => some (catalogStep env catalog call)) ⟨[]⟩ calls =
      some catalogs) :
    (∀ catalog ∈ catalogs, UniqueCids catalog) ↔
      Guarded (fun catalog call => some (catalogStep env catalog call)) KeepsUnique ⟨[]⟩
        calls := by
  have hempty : UniqueCids ⟨[]⟩ := by
    rintro cid i j ⟨file, v, hfile, -⟩
    cases hfile
  refine trace_forall_iff (fun catalog call catalog' hs _ _ hstep => ?_)
    (fun catalog call catalog' hs huniq hstep => ?_) stored_empty hempty h
  · cases hstep
    exact stored_catalogStep call hs
  · cases hstep
    exact uniqueCids_step call hs huniq

theorem uniqueCids_iff_keepsUnique_patch :
    ∃ catalogs, trace (fun catalog call => some (catalogStep plainEnv catalog call)) ⟨[]⟩
        [.initial cidA someUpload, .patch cidB ['A'] someUpload] = some catalogs ∧
      ((∀ catalog ∈ catalogs, UniqueCids catalog) ↔
        Guarded (fun catalog call => some (catalogStep plainEnv catalog call)) KeepsUnique ⟨[]⟩
          [.initial cidA someUpload, .patch cidB ['A'] someUpload]) :=
  exists_trace_of (by decide) fun _ h => uniqueCids_iff_keepsUnique plainEnv h

/-- A patch of `A` is uploaded once more as an initial version: `B` is then in
the files of both roots, and only the first place is ever found. -/
theorem patch_uploaded_again :
    ∃ catalogs, trace (fun catalog call => some (catalogStep plainEnv catalog call)) ⟨[]⟩
        [.initial cidA someUpload, .patch cidB ['A'] someUpload, .initial cidB someUpload] =
          some catalogs ∧
      ∃ catalog ∈ catalogs, (catalog.files.map fun file => file.versions.map (·.cid)) =
          [[['A'], ['B']], [['B']]] ∧
        findVersionLocation catalog ['B'] = some (0, 1) :=
  exists_trace (by decide)

end OpenDsn.Api
