import OpenDsn.Api.CatalogRun
import OpenDsn.Cli.VersionChain

/-!
# Deals through the API

`cmd/opendsn-api/handlers.go`, `handleClientDeal`: a request runs the lotus
command, which writes the version metadata, and then records the version in the
catalog. Both stores say which version a version follows, and both have their
own rule for a CID they already know: the command overwrites its metadata, the
catalog keeps its entry.

Result: `agrees_iff_samePrevious`. The stores agree exactly as long as no
request records a known CID under another previous version.
-/

namespace OpenDsn.Api

open Lib Lib.Text Cli CatalogLemmas MetadataLemmas

structure DealRequest where
  root : Text
  miner : Text
  previousRoot : Text
  sourcePath : Text
  displayName : Text
  sizeBytes : Int

/-- What one request meets: the surroundings of the lotus command, the time, the
sizes of files that are no directories, and whether the catalog can be loaded
and saved. -/
structure RequestEnv where
  deal : DealEnv
  now : Text
  fileSize : Text → Option Int
  store : Bool

structure Server where
  dir : Dir
  catalog : Catalog

inductive DealReply
  /-- "root is required" -/
  | rootRequired
  /-- "miner is required" -/
  | minerRequired
  /-- "deal failed" -/
  | dealFailed
  /-- "deal finished, but catalog update failed: %v" -/
  | catalogFailed (error : Option CatalogError)
  /-- "deal finished" -/
  | finished (entry : Option (CatalogFile × CatalogVersion))

/-- The arguments of the lotus command. -/
def lotusArgs (req : DealRequest) : DealArgs where
  create := trimSpace req.previousRoot = []
  update := trimSpace req.previousRoot ≠ []
  previous := trimSpace req.previousRoot
  dataCid := trimSpace req.root

def requestUpload (env : RequestEnv) (req : DealRequest) : Upload where
  sourcePath := trimSpace req.sourcePath
  displayName := trimSpace req.displayName
  sizeBytes :=
    if req.sizeBytes ≤ 0 ∧ trimSpace req.sourcePath ≠ [] then
      (env.fileSize (trimSpace req.sourcePath)).getD req.sizeBytes
    else req.sizeBytes
  minerIndex := trimSpace req.miner
  uploadedAt := env.now

/-- The catalog update after a successful deal. -/
def updateCatalog (catalogEnv : CatalogEnv) (env : RequestEnv) (catalog : Catalog)
    (req : DealRequest) :
    Except (Option CatalogError) (Catalog × Option (CatalogFile × CatalogVersion)) :=
  if !env.store then .error none
  else if trimSpace req.previousRoot = [] then
    .ok (recordInitialVersion catalogEnv catalog (trimSpace req.root) (requestUpload env req))
  else
    match recordPatchVersion catalogEnv catalog (trimSpace req.root) (trimSpace req.previousRoot)
      (requestUpload env req) with
    | .error e => .error (some e)
    | .ok (catalog', entry) => .ok (catalog', some entry)

def handleClientDeal (cids : CidParser) (catalogEnv : CatalogEnv) (env : RequestEnv) (s : Server)
    (req : DealRequest) : DealReply × Server :=
  if trimSpace req.root = [] then (.rootRequired, s)
  else if trimSpace req.miner = [] then (.minerRequired, s)
  else
    match clientDeal cids ⟨env.deal, lotusArgs req⟩ s.dir with
    | (.error _, dir) => (.dealFailed, { s with dir := dir })
    | (.ok _, dir) =>
        match updateCatalog catalogEnv env s.catalog req with
        | .error e => (.catalogFailed e, { s with dir := dir })
        | .ok (catalog, entry) => (.finished entry, ⟨dir, catalog⟩)

/-- The step of a run of requests in which the deal and the catalog update both
succeed. -/
def requestStep (cids : CidParser) (catalogEnv : CatalogEnv) (s : Server)
    (request : RequestEnv × DealRequest) : Option Server :=
  match handleClientDeal cids catalogEnv request.1 s request.2 with
  | (.finished _, s') => some s'
  | _ => none

/-- Line 1 of a metadata file, empty for `NULL`. -/
def metaPrevious (dir : Dir) (cid : Text) : Option Text :=
  match readMeta dir cid with
  | .error _ => none
  | .ok lines => some (if lines.1 = nullText then [] else lines.1)

/-- The catalog and the metadata name the same predecessor of every version. -/
def Agrees (s : Server) : Prop :=
  ∀ file ∈ s.catalog.files, ∀ v ∈ file.versions, metaPrevious s.dir v.cid = some v.previousCid

/-- A version of the uploaded CID that is in the catalog already has the
predecessor that the request names. -/
def SamePrevious (s : Server) (request : RequestEnv × DealRequest) : Prop :=
  ∀ file ∈ s.catalog.files, ∀ v ∈ file.versions, v.cid = trimSpace request.2.root →
    v.previousCid = trimSpace request.2.previousRoot

namespace ClientDealLemmas

variable {cids : CidParser} {catalogEnv : CatalogEnv} {s s' : Server}
  {request : RequestEnv × DealRequest} {e : Text × Option Text} {o o' : Outline}

/-- A text as the previous CID of a link. -/
def pointer (previous : Text) : Option Text := if previous = [] then none else some previous

theorem pointer_inj {t t' : Text} (h : pointer t = pointer t') : t = t' := by
  unfold pointer at h
  split at h <;> split at h <;> simp_all

theorem metaPrevious_iff {dir : Dir} (hwf : WellFormed cids dir) {c t : Text} :
    metaPrevious dir c = some t ↔ previousCid cids dir c = .ok (pointer t) := by
  by_cases hc : metaPath c ∈ dir
  · obtain ⟨-, m, hm⟩ := meta_of_mem hwf hc
    rw [previousCid_content hm]
    unfold metaPrevious
    rw [readMeta_content hm]
    -- The text on line 1 and the pointer it stands for.
    have hline : m.prev = pointer
        (if pointerText m.prev = nullText then [] else pointerText m.prev) := by
      cases hp : m.prev with
      | none => rfl
      | some p =>
        have htext := cids.cidText p (m.prev_cid p hp)
        show some p = pointer (if p = nullText then [] else p)
        rw [if_neg htext.ne_null, pointer, if_neg htext.ne_nil]
    constructor
    · rintro ⟨⟩
      exact congrArg Except.ok hline
    · intro hok
      rw [hline] at hok
      exact congrArg some (pointer_inj (Except.ok.inj hok))
  · have hnone : readMeta dir c = .error (.missing (metaPath c)) := by
      unfold readMeta
      rw [AList.lookup_eq_none.mpr hc]
    unfold metaPrevious previousCid
    simp [hnone]

/-- What a successful request did in the two stores. -/
theorem requestStep_ok (h : requestStep cids catalogEnv s request = some s') :
    dealStep cids s.dir ⟨request.1.deal, lotusArgs request.2⟩ = some s'.dir ∧
      ∃ entry, updateCatalog catalogEnv request.1 s.catalog request.2 =
        .ok (s'.catalog, entry) := by
  unfold requestStep handleClientDeal at h
  split at h
  · next entry s'' hreply =>
    cases h
    split at hreply
    · cases hreply
    split at hreply
    · cases hreply
    split at hreply
    · cases hreply
    next dir hdeal =>
    split at hreply
    · cases hreply
    next catalog entry' hupdate =>
    cases hreply
    refine ⟨?_, entry, hupdate⟩
    unfold dealStep
    rw [hdeal]
  · cases h

/-- The metadata after a successful request: the previous version of the
uploaded CID is the one of the request. -/
theorem repoint_request (hwf : WellFormed cids s.dir)
    (h : requestStep cids catalogEnv s request = some s') :
    WellFormed cids s'.dir ∧ IsCid (trimSpace request.2.root) ∧
      Repoint (previousCid cids s.dir) (trimSpace request.2.root)
        (pointer (trimSpace request.2.previousRoot)) (previousCid cids s'.dir) := by
  obtain ⟨hdeal, -⟩ := requestStep_ok h
  obtain ⟨-, hacc, -⟩ := dealStep_ok hdeal
  have htext := cids.cidText _ hacc
  obtain ⟨hwf', heff⟩ := dealStep_effect hwf hdeal
  refine ⟨hwf', ⟨htext.ne_nil, trimSpace_eq_self htext.no_space⟩, ?_⟩
  cases heff with
  | create hcreate _ hprev _ =>
    rw [pointer, if_pos (of_decide_eq_true hcreate)]
    exact hprev
  | update _ hupdate _ _ hprev _ _ =>
    rw [pointer, if_neg (of_decide_eq_true hupdate)]
    exact hprev
  | deal hcreate hupdate _ =>
    exact absurd (of_decide_eq_false hcreate) (of_decide_eq_false hupdate)

/-- All links of an outline. -/
def allLinks (o : Outline) : Multiset (Text × Option Text) := o.bind Prod.snd

/-- `o'` has the links of `o`, and maybe the link `e`. -/
structure MayAdd (o o' : Outline) (e : Text × Option Text) : Prop where
  keeps : ∀ l ∈ allLinks o, l ∈ allLinks o'
  adds : ∀ l ∈ allLinks o', l ∈ allLinks o ∨ l = e

theorem MayAdd.rfl : MayAdd o o e :=
  ⟨fun _ hl => hl, fun _ hl => .inl hl⟩

theorem mayAdd_of_cons
    (h : allLinks o' = e ::ₘ allLinks o) : MayAdd o o' e where
  keeps l hl := by
    rw [h]
    exact Multiset.mem_cons_of_mem hl
  adds l hl := by
    rw [h] at hl
    exact (Multiset.mem_cons.mp hl).symm

theorem mayAdd_initial {root : Text} (h : InitialEffect root o o') :
    MayAdd o o' (root, none) := by
  cases h with
  | known _ heq => exact heq ▸ .rfl
  | added _ heq =>
    refine mayAdd_of_cons ?_
    rw [heq, allLinks, Multiset.cons_bind, Multiset.singleton_add, allLinks]

theorem mayAdd_patch {cid previous : Text} (h : PatchEffect cid previous o o') :
    MayAdd o o' (cid, some previous) := by
  cases h with
  | known _ _ _ heq => exact heq ▸ .rfl
  | added hfile _ _ heq =>
    refine mayAdd_of_cons ?_
    rw [heq, hfile, allLinks, allLinks, Multiset.cons_bind, Multiset.cons_bind, Multiset.cons_add]

/-- The catalog after a successful request has the links it had, and maybe the
one of the request. -/
theorem links_request (hsound : Sound (outline s.catalog))
    (hcid : IsCid (trimSpace request.2.root))
    (h : requestStep cids catalogEnv s request = some s') :
    Sound (outline s'.catalog) ∧ MayAdd (outline s.catalog) (outline s'.catalog)
      (trimSpace request.2.root, pointer (trimSpace request.2.previousRoot)) := by
  obtain ⟨-, entry, hupdate⟩ := requestStep_ok h
  unfold updateCatalog at hupdate
  split at hupdate
  · cases hupdate
  split at hupdate
  · next hprev =>
    have heff := outline_recordInitialVersion catalogEnv (requestUpload request.1 request.2) hcid
      hsound
    have hcat := Except.ok.inj hupdate
    rw [hcat] at heff
    rw [pointer, if_pos hprev]
    exact ⟨heff.sound hcid hsound, mayAdd_initial heff⟩
  · next hprev =>
    split at hupdate
    · cases hupdate
    next catalog' entry' hok =>
    cases hupdate
    rcases outline_recordPatchVersion catalogEnv (trimSpace request.2.previousRoot)
      (requestUpload request.1 request.2) hcid hsound with
      ⟨-, herr⟩ | ⟨catalog, entry, hok', -, heff⟩
    · rw [herr] at hok
      cases hok
    · rw [hok'] at hok
      have hcat : normalize catalogEnv catalog = s'.catalog :=
        congrArg Prod.fst (Except.ok.inj hok)
      rw [hcat] at heff
      rw [pointer, if_neg hprev]
      exact ⟨heff.sound hcid hsound, mayAdd_patch heff⟩

theorem forall_allLinks {p : Text × Option Text → Prop} : (∀ e ∈ allLinks (outline catalog), p e) ↔
    ∀ file ∈ catalog.files, ∀ v ∈ file.versions, p (link v) := by
  constructor
  · intro hall file hf v hv
    exact hall _ (Multiset.mem_bind.mpr
      ⟨_, mem_outline.mpr ⟨file, hf, rfl⟩, List.mem_map_of_mem hv⟩)
  · intro hall e he
    obtain ⟨x, hx, hex⟩ := Multiset.mem_bind.mp he
    obtain ⟨file, hf, rfl⟩ := mem_outline.mp hx
    obtain ⟨v, hv, rfl⟩ := List.mem_map.mp hex
    exact hall file hf v hv

theorem agrees_iff (hwf : WellFormed cids s.dir) : Agrees s ↔
    ∀ e ∈ allLinks (outline s.catalog), previousCid cids s.dir e.1 = .ok e.2 := by
  rw [forall_allLinks]
  exact forall₄_congr fun _ _ _ _ => metaPrevious_iff hwf

theorem samePrevious_iff : SamePrevious s request ↔
    ∀ e ∈ allLinks (outline s.catalog), e.1 = trimSpace request.2.root →
      e.2 = pointer (trimSpace request.2.previousRoot) := by
  rw [forall_allLinks]
  exact forall₅_congr fun _ _ _ _ _ => ⟨congrArg pointer, fun h => pointer_inj h⟩

/-- One request: the stores still agree exactly when the request names the
predecessor the catalog has for its CID, if it has one. -/
theorem agrees_step (hwf : WellFormed cids s.dir) (hsound : Sound (outline s.catalog))
    (hagree : Agrees s) (h : requestStep cids catalogEnv s request = some s') :
    Agrees s' ↔ SamePrevious s request := by
  obtain ⟨hwf', hcid, hprev⟩ := repoint_request hwf h
  have hlinks := (links_request hsound hcid h).2
  rw [agrees_iff hwf] at hagree
  rw [agrees_iff hwf', samePrevious_iff]
  constructor
  · intro hall e he heq
    have hok := hall e (hlinks.keeps e he)
    rw [heq, hprev.self] at hok
    exact (Except.ok.inj hok).symm
  · intro hsame e he
    by_cases hroot : e.1 = trimSpace request.2.root
    · rw [hroot, hprev.self]
      rcases hlinks.adds e he with he | rfl
      · rw [hsame e he hroot]
      · rfl
    · rw [hprev.other _ hroot]
      rcases hlinks.adds e he with he | rfl
      · exact hagree e he
      · exact absurd rfl hroot

end ClientDealLemmas

open ClientDealLemmas

/-- In every run of successful requests from empty stores, they agree in every
state exactly when no request records a CID of the catalog under another
predecessor. -/
theorem agrees_iff_samePrevious {cids : CidParser} {catalogEnv : CatalogEnv}
    {requests : List (RequestEnv × DealRequest)} {states : List Server}
    (h : trace (requestStep cids catalogEnv) ⟨∅, ⟨[]⟩⟩ requests = some states) :
    (∀ s ∈ states, Agrees s) ↔
      Guarded (requestStep cids catalogEnv) SamePrevious ⟨∅, ⟨[]⟩⟩ requests := by
  have hinv : ∀ s request s', WellFormed cids s.dir ∧ Sound (outline s.catalog) → Agrees s →
      SamePrevious s request → requestStep cids catalogEnv s request = some s' →
      WellFormed cids s'.dir ∧ Sound (outline s'.catalog) := by
    rintro s request s' ⟨hwf, hsound⟩ - - hstep
    obtain ⟨hwf', hcid, -⟩ := repoint_request hwf hstep
    exact ⟨hwf', (links_request hsound hcid hstep).1⟩
  refine trace_forall_iff hinv (fun s request s' hi hagree hstep => ?_)
    ⟨wellFormed_empty, stored_empty.sound⟩ (List.forall_mem_nil _) h
  exact agrees_step hi.1 hi.2 hagree hstep

/-! ### Runs on one-letter CIDs -/

/-- An upload of `root` as the successor of `previous`, if that is not empty. -/
def uploadRequest (root previous : Text) : RequestEnv × DealRequest :=
  (⟨calmEnv, ['t'], fun _ => none, true⟩, ⟨root, ['m'], previous, [], ['f'], 1⟩)

theorem agrees_iff_samePrevious_branches :
    ∃ states, trace (requestStep letterCids plainEnv) ⟨∅, ⟨[]⟩⟩
        [uploadRequest ['A'] [], uploadRequest ['B'] ['A'], uploadRequest ['C'] ['A']] =
          some states ∧
      ((∀ s ∈ states, Agrees s) ↔
        Guarded (requestStep letterCids plainEnv) SamePrevious ⟨∅, ⟨[]⟩⟩
          [uploadRequest ['A'] [], uploadRequest ['B'] ['A'], uploadRequest ['C'] ['A']]) :=
  exists_trace_of (by decide) fun _ h => agrees_iff_samePrevious h

/-- `B` is uploaded as the successor of `A` and later, with the same content, as
the one of `C`: the catalog keeps `A`, the metadata has `C`. -/
theorem reupload_under_other_predecessor :
    ∃ states, trace (requestStep letterCids plainEnv) ⟨∅, ⟨[]⟩⟩
        [uploadRequest ['A'] [], uploadRequest ['B'] ['A'], uploadRequest ['C'] ['A'],
          uploadRequest ['B'] ['C']] = some states ∧
      ∃ s ∈ states, (s.catalog.files.flatMap fun file =>
          file.versions.map fun v => (v.cid, v.previousCid)) =
            [(['A'], []), (['B'], ['A']), (['C'], ['A'])] ∧
        metaPrevious s.dir ['B'] = some ['C'] :=
  exists_trace (by decide)

end OpenDsn.Api
