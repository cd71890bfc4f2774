import OpenDsn.Chain.Reorg
import OpenDsn.Lib.Ancestry
import OpenDsn.Lib.Except
import OpenDsn.Lib.Sort

/-!
# The head of the chain store

`chain/store/store.go`: the blocks the store has, its head (`heaviest`), its
checkpoint, and the calls that move them. A tipset is offered by
`MaybeTakeHeavierTipSet`, directly or after `PutTipSet` has expanded it with the
blocks of the tipset tracker; it becomes the head if it is heavier, or wins a tie by
its tickets, and does not fork too far. `SetHead` forces a head and removes the
checkpoint.

The chain of a tipset is a matter of the headers alone, whether or not they are
stored already. `Headers` are the headers there are: a header is known by its CID,
and is higher than its parents.

* `loadTipSet_parent`: what the store loads is the parent among the headers;
* `exceedsLoop_false`: a fork that is not too long goes back to a common ancestor,
  and not below the checkpoint;
* `exceedsLoop_returns`, `isAncestorLoop_returns`: the walks end.
-/

namespace OpenDsn.Chain

open Lib List

/-- `build.ForkLengthThreshold`, which is `Finality`. -/
def forkLengthThreshold : Nat := 900

/-- The VRF proof of a ticket. -/
abbrev Ticket := List UInt8

/-- What the store reads of headers besides the fields of `BlockHeader`, and the
functions it is given. -/
structure StoreEnv where
  sorter : Sorter
  miner : BlockHeader → Nat
  ticket : BlockHeader → Ticket
  /-- The BLAKE2b digest of a VRF proof, as a number: digests have one length, so
  that they compare in the same way. -/
  digest : Ticket → Nat
  /-- The `WeightFunc`; there is a weight for no tipset. -/
  weight : Option TipSet → Option Int

/-! ## Tipsets from blocks -/

inductive TipSetError
  /-- "NewTipSet called with zero length array of blocks" -/
  | noBlocks
  /-- "cannot create tipset with mismatching heights" -/
  | heights
  /-- "cannot create tipset with mismatching number of parents" -/
  | numberOfParents
  /-- "cannot create tipset with mismatching parents" -/
  | parents
deriving DecidableEq

/-- `Ticket.Less`. -/
def StoreEnv.less (env : StoreEnv) (a b : Ticket) : Bool := env.digest a < env.digest b

def tipsetSortFunc (env : StoreEnv) (a b : BlockHeader) : Bool :=
  if env.ticket a = env.ticket b then a.cid < b.cid else env.less (env.ticket a) (env.ticket b)

/-- The checks of `NewTipSet` against the first block. -/
def checkBlocks (first : BlockHeader) : List BlockHeader → Except TipSetError Unit
  | [] => .ok ()
  | b :: rest =>
      if b.height ≠ first.height then .error .heights
      else if first.parents.length ≠ b.parents.length then .error .numberOfParents
      else if b.parents ≠ first.parents then .error .parents
      else checkBlocks first rest

theorem checkBlocks_ok {first : BlockHeader} {blks : List BlockHeader}
    (h : checkBlocks first blks = .ok ()) :
    ∀ b ∈ blks, b.height = first.height ∧ b.parents = first.parents := by
  induction blks with
  | nil => exact forall_mem_nil _
  | cons b rest ih =>
    unfold checkBlocks at h
    split_ifs at h with hheight hlength hparents
    exact forall_mem_cons.mpr ⟨⟨not_not.mp hheight, not_not.mp hparents⟩, ih h⟩

/-- The tipset of blocks that pass the checks. -/
def TipSet.ofChecked (first : BlockHeader) (rest : List BlockHeader)
    (h : checkBlocks first rest = .ok ()) : TipSet where
  blks := first :: rest
  blks_ne := List.cons_ne_nil first rest
  same_height := List.forall_mem_cons.mpr ⟨rfl, fun b hb => (checkBlocks_ok h b hb).1⟩
  same_parents := List.forall_mem_cons.mpr ⟨rfl, fun b hb => (checkBlocks_ok h b hb).2⟩

def newTipSet (env : StoreEnv) (blks : List BlockHeader) : Except TipSetError TipSet :=
  match env.sorter.sort (tipsetSortFunc env) blks with
  | [] => .error .noBlocks
  | first :: rest =>
      match h : checkBlocks first rest with
      | .error e => .error e
      | .ok () => .ok (TipSet.ofChecked first rest h)

/-! ## The store -/

structure ChainStore where
  /-- The chain blockstore. -/
  stored : List BlockHeader
  /-- The tipset tracker: the blocks seen at each height. -/
  tipsets : Nat → List BlockCid
  heaviest : Option TipSet
  checkpoint : Option TipSet

inductive LoadError
  /-- "get block %s" -/
  | getBlock (c : BlockCid)
  | newTipSet (e : TipSetError)
deriving DecidableEq

inductive StoreError
  | weight
  /-- "failed to load parent tipset in external chain" -/
  | externalParent (e : LoadError)
  /-- "failed to load parent tipset in synced chain" -/
  | syncedParent (e : LoadError)
  /-- "errored while expanding tipset" -/
  | expand (e : LoadError)
  /-- "cannot set a checkpoint in the future" -/
  | future
  /-- "cannot set a checkpoint before the fork threshold" -/
  | beforeThreshold
  /-- "cannot determine whether checkpoint tipset is in main-chain" -/
  | undetermined (e : LoadError)
  /-- "cannot mark tipset as checkpoint, since it isn't in the main-chain" -/
  | notInMainChain
  /-- A nil head is dereferenced. -/
  | nilHead
  /-- A loop did not end in the rounds it was given. -/
  | outOfFuel
deriving DecidableEq

section

variable (env : StoreEnv) (cs : ChainStore)

def getBlock (c : BlockCid) : Except LoadError BlockHeader :=
  match cs.stored.find? (·.cid = c) with
  | none => .error (.getBlock c)
  | some b => .ok b

/-- The headers of some CIDs. -/
def getBlocks (cs : ChainStore) : List BlockCid → Except LoadError (List BlockHeader)
  | [] => .ok []
  | c :: rest =>
      match getBlock cs c, getBlocks cs rest with
      | .error e, _ => .error e
      | .ok _, .error e => .error e
      | .ok b, .ok blks => .ok (b :: blks)

def loadTipSet (tsk : TipSetKey) : Except LoadError TipSet :=
  match getBlocks cs tsk with
  | .error e => .error e
  | .ok blks => (newTipSet env blks).mapError .newTipSet

/-- The loop of `IsAncestorOf`. -/
def isAncestorLoop (env : StoreEnv) (cs : ChainStore) (a : TipSet) :
    Nat → TipSet → Except StoreError Bool
  | fuel, cur =>
      if !a.equals cur ∧ cur.height > a.height then
        match fuel with
        | 0 => .error .outOfFuel
        | fuel + 1 =>
            match loadTipSet env cs cur.parents with
            | .error e => .error (.undetermined e)
            | .ok next => isAncestorLoop env cs a fuel next
      else .ok (cur.equals a)

def isAncestorOf (a b : TipSet) : Except StoreError Bool :=
  if b.height ≤ a.height then .ok false else isAncestorLoop env cs a b.height b

/-! ## Offering a tipset -/

/-- The inner loop of `exceedsForkLength`: down the external chain to the height of
`synced`; `none` at the genesis of the external chain. -/
def walkExternal (env : StoreEnv) (cs : ChainStore) (synced : TipSet) :
    Nat → TipSet → Except StoreError (Option TipSet)
  | fuel, external =>
      if external.height > synced.height then
        if external.height = 0 then .ok none
        else
          match fuel with
          | 0 => .error .outOfFuel
          | fuel + 1 =>
              match loadTipSet env cs external.parents with
              | .error e => .error (.externalParent e)
              | .ok parent => walkExternal env cs synced fuel parent
      else .ok (some external)

/-- `TipSet.Equals` with a tipset that may be nil. -/
def TipSet.equals? (ts : TipSet) : Option TipSet → Bool
  | none => false
  | some ots => ts.equals ots

/-- The loop over the fork length; the number is the rounds that are left. -/
def exceedsLoop (env : StoreEnv) (cs : ChainStore) :
    Nat → TipSet → TipSet → Except StoreError Bool
  | 0, _, _ => .ok true
  | rounds + 1, synced, external =>
      match walkExternal env cs synced external.height external with
      | .error e => .error e
      | .ok none => .ok true
      | .ok (some external) =>
          if synced.equals external then .ok false
          -- we have walked back to the checkpoint
          else if synced.equals? cs.checkpoint then .ok true
          else if synced.height = 0 then .ok true
          else
            match loadTipSet env cs synced.parents with
            | .error e => .error (.syncedParent e)
            | .ok synced => exceedsLoop env cs rounds synced external

def exceedsForkLength (synced : Option TipSet) (external : TipSet) : Except StoreError Bool :=
  match synced with
  | none => .ok false
  | some synced => exceedsLoop env cs forkLengthThreshold synced external

/-- The loop of `breakWeightTie`, over the blocks that both tipsets have. -/
def breakTieLoop (env : StoreEnv) : List BlockHeader → List BlockHeader → Bool
  | b1 :: blks1, b2 :: blks2 =>
      if env.less (env.ticket b1) (env.ticket b2) then true else breakTieLoop env blks1 blks2
  | _, _ => false

/-- Whether `ts1` wins according to the tie-break rule. -/
def breakWeightTie (ts1 ts2 : TipSet) : Bool :=
  breakTieLoop env ts1.blks ts2.blks

def takeHeaviestTipSet (ts : TipSet) : ChainStore :=
  { cs with heaviest := some ts }

def weightOf (ts : Option TipSet) : Except StoreError Int :=
  match env.weight ts with
  | none => .error .weight
  | some w => .ok w

/-- Whether an offered tipset is heavier than the head, ties broken. -/
def isHeavier (ts : TipSet) (w heaviestW : Int) : Except StoreError Bool :=
  if w = heaviestW ∧ !ts.equals? cs.heaviest then
    match cs.heaviest with
    | none => .error .nilHead
    | some heaviest => .ok (breakWeightTie env ts heaviest)
  else .ok (w > heaviestW)

def maybeTakeHeavierTipSet (ts : TipSet) : Except StoreError ChainStore := do
  let w ← weightOf env (some ts)
  let heaviestW ← weightOf env cs.heaviest
  let heavier ← isHeavier env cs ts w heaviestW
  if heavier then
    let exceeds ← exceedsForkLength env cs cs.heaviest ts
    if exceeds then return cs else return takeHeaviestTipSet cs ts
  else return cs

/-! ## Putting tipsets -/

def persistBlockHeaders (blks : List BlockHeader) : ChainStore :=
  { cs with stored := blks ++ cs.stored }

/-- `CidArrsEqual`: the order is ignored, and how often a CID occurs. -/
def cidArrsEqual (a b : List BlockCid) : Bool := a.length = b.length ∧ ∀ c ∈ b, c ∈ a

/-- The loop of `expandTipset`: the blocks of the tipset so far, and their miners. -/
def expandLoop (env : StoreEnv) (cs : ChainStore) (b : BlockHeader) :
    List BlockCid → List BlockHeader → List Nat → Except LoadError (List BlockHeader)
  | [], all, _ => .ok all
  | bhc :: rest, all, inclMiners =>
      if bhc = b.cid then expandLoop env cs b rest all inclMiners
      else
        match getBlock cs bhc with
        | .error e => .error e
        | .ok h =>
            if env.miner h ∈ inclMiners then expandLoop env cs b rest all inclMiners
            else if cidArrsEqual h.parents b.parents then
              expandLoop env cs b rest (all ++ [h]) (env.miner h :: inclMiners)
            else expandLoop env cs b rest all inclMiners

def expandTipset (b : BlockHeader) : Except LoadError TipSet :=
  match expandLoop env cs b (cs.tipsets b.height) [b] [env.miner b] with
  | .error e => .error e
  | .ok all => (newTipSet env all).mapError .newTipSet

/-- What `PutTipSet` and `AddBlock` do once the blocks are stored. -/
def offerExpanded (b : BlockHeader) : Except StoreError ChainStore :=
  match expandTipset env cs b with
  | .error e => .error (.expand e)
  | .ok expanded => maybeTakeHeavierTipSet env cs expanded

/-- The first block of a tipset. -/
def TipSet.first (ts : TipSet) : BlockHeader := ts.blks.head ts.blks_ne

/-- A call keeps what it did before it failed. -/
def commit (r : Except StoreError ChainStore) : ChainStore × Except StoreError Unit :=
  match r with
  | .error e => (cs, .error e)
  | .ok cs' => (cs', .ok ())

def putTipSet (ts : TipSet) : ChainStore × Except StoreError Unit :=
  let cs := persistBlockHeaders cs ts.blks
  commit cs (offerExpanded env cs ts.first)

def addBlock (b : BlockHeader) : ChainStore × Except StoreError Unit :=
  let cs := persistBlockHeaders cs [b]
  commit cs (offerExpanded env cs b)

/-- `AddToTipSetTracker`. `first` is the height at which the iteration over the
tracker starts and ends; it is forgotten if it is too old. -/
def addToTipSetTracker (b : BlockHeader) (first : Option Nat) : ChainStore :=
  if b.cid ∈ cs.tipsets b.height then cs
  else
    { cs with
      tipsets := fun height =>
        if height = b.height then cs.tipsets b.height ++ [b.cid]
        else if some height = first ∧ height + forkLengthThreshold < b.height then []
        else cs.tipsets height }

/-! ## Checkpoints and forced heads -/

def removeCheckpoint : ChainStore := { cs with checkpoint := none }

def setHead (ts : TipSet) : ChainStore :=
  takeHeaviestTipSet (removeCheckpoint cs) ts

def forceHeadSilent (ts : TipSet) : ChainStore :=
  { removeCheckpoint cs with heaviest := some ts }

/-- The check that a tipset is the head or one of its ancestors. -/
def checkMainChain (ts heaviest : TipSet) : Except StoreError Unit :=
  if ts.equals heaviest then .ok ()
  else
    match isAncestorOf env cs ts heaviest with
    | .error e => .error e
    | .ok anc => if anc then .ok () else .error .notInMainChain

def setCheckpoint (ts : TipSet) : Except StoreError ChainStore :=
  match cs.heaviest with
  | none => .error .nilHead
  | some heaviest =>
      if ts.height > heaviest.height then .error .future
      else if heaviest.height - ts.height > forkLengthThreshold then .error .beforeThreshold
      else
        match checkMainChain env cs ts heaviest with
        | .error e => .error e
        | .ok () => .ok { cs with checkpoint := some ts }

end

/-! ## The headers there are -/

/-- Headers under their CIDs. A header is higher than its parents. -/
structure Headers where
  header : BlockCid → Option BlockHeader
  header_cid : ∀ {c : BlockCid} {b : BlockHeader}, header c = some b → b.cid = c
  parent_lower : ∀ {c p : BlockCid} {b pb : BlockHeader}, header c = some b → p ∈ b.parents →
    header p = some pb → pb.height < b.height

namespace Headers

/-- `b` is one of the headers. -/
def Knows (u : Headers) (b : BlockHeader) : Prop := u.header b.cid = some b

/-- `ts` is a tipset of the headers. -/
def Has (u : Headers) (ts : TipSet) : Prop := ∀ b ∈ ts.blks, u.Knows b

instance (u : Headers) (b : BlockHeader) : Decidable (u.Knows b) :=
  inferInstanceAs (Decidable (u.header b.cid = some b))

instance (u : Headers) (ts : TipSet) : Decidable (u.Has ts) :=
  inferInstanceAs (Decidable (∀ b ∈ ts.blks, u.Knows b))

/-- The headers under some CIDs. -/
def headers (u : Headers) : List BlockCid → Option (List BlockHeader)
  | [] => some []
  | c :: rest =>
      match u.header c, u.headers rest with
      | some b, some blks => some (b :: blks)
      | _, _ => none

/-- The tipset under a key. -/
def load (u : Headers) (env : StoreEnv) (tsk : TipSetKey) : Option TipSet :=
  match u.headers tsk with
  | none => none
  | some blks =>
      match newTipSet env blks with
      | .error _ => none
      | .ok ts => some ts

def parent (u : Headers) (env : StoreEnv) (ts : TipSet) : Option TipSet := u.load env ts.parents

/-- Everything in the store is one of the headers. -/
def Backs (u : Headers) (cs : ChainStore) : Prop := ∀ b ∈ cs.stored, u.Knows b

end Headers

namespace StoreLemmas

open Headers

variable {env : StoreEnv} {u : Headers} {cs cs' : ChainStore} {ts p synced external : TipSet}
  {blks : List BlockHeader} {fuel : Nat}

theorem newTipSet_blks (h : newTipSet env blks = .ok ts) :
    ts.blks = env.sorter.sort (tipsetSortFunc env) blks := by
  unfold newTipSet at h
  split at h
  · cases h
  next first rest hsort =>
  split at h
  · cases h
  · cases h
    exact hsort.symm

theorem newTipSet_perm (h : newTipSet env blks = .ok ts) : ts.blks.Perm blks := by
  rw [newTipSet_blks h]
  exact env.sorter.perm _ blks

/-- Among the headers, `TipSet.Equals` is equality. -/
theorem equals_iff (hts : u.Has ts) (hp : u.Has p) : ts.equals p = true ↔ ts = p := by
  constructor
  · intro h
    have hcids : ts.blks.map BlockHeader.cid = p.blks.map BlockHeader.cid :=
      (of_decide_eq_true h).2
    have hmap : ∀ l : List BlockHeader, (∀ b ∈ l, u.Knows b) →
        (l.map BlockHeader.cid).map u.header = l.map some := by
      intro l hl
      rw [map_map]
      exact map_congr_left hl
    have hblks : ts.blks = p.blks := by
      refine map_injective_iff.mpr (Option.some_injective _) ?_
      rw [← hmap _ hts, ← hmap _ hp, hcids]
    cases ts
    cases p
    cases hblks
    rfl
  · rintro rfl
    simp [TipSet.equals]

theorem first_mem : ts.first ∈ ts.blks := head_mem ts.blks_ne

theorem mem_headers {tsk : List BlockCid}
    (h : u.headers tsk = some blks) : ∀ b ∈ blks, ∃ c ∈ tsk, u.header c = some b := by
  induction tsk generalizing blks with
  | nil =>
    cases h
    exact forall_mem_nil _
  | cons c rest ih =>
    unfold headers at h
    split at h
    · next b blks' hb hblks =>
      cases h
      refine forall_mem_cons.mpr ⟨⟨c, mem_cons_self, hb⟩, fun b' hb' => ?_⟩
      obtain ⟨c', hc', hh⟩ := ih hblks b' hb'
      exact ⟨c', mem_cons_of_mem _ hc', hh⟩
    · cases h

/-- A parent is lower, and it is a tipset of the headers. -/
theorem parent_spec (hts : u.Has ts) (h : u.parent env ts = some p) :
    u.Has p ∧ p.height < ts.height := by
  unfold parent load at h
  split at h
  · cases h
  next blks hblks =>
  split at h
  · cases h
  next hnew =>
  cases h
  have hmem : ∀ b ∈ p.blks, ∃ c ∈ ts.parents, u.header c = some b := fun b hb =>
    mem_headers hblks b ((newTipSet_perm hnew).mem_iff.mp hb)
  constructor
  · intro b hb
    obtain ⟨c, -, hc⟩ := hmem b hb
    unfold Headers.Knows
    rwa [u.header_cid hc]
  · obtain ⟨c, hc, hhead⟩ := hmem _ first_mem
    exact u.parent_lower (hts _ first_mem) hc hhead

/-! ### Loading from the store -/

theorem getBlock_ok {c : BlockCid} {b : BlockHeader} (h : getBlock cs c = .ok b) :
    b ∈ cs.stored ∧ b.cid = c := by
  unfold getBlock at h
  split at h
  · cases h
  next hb =>
  cases h
  exact ⟨mem_of_find?_eq_some hb, by simpa using find?_some hb⟩

/-- The blocks of a key are stored, and have its CIDs. -/
theorem getBlocks_spec {tsk : List BlockCid} (h : getBlocks cs tsk = .ok blks) :
    (∀ b ∈ blks, b ∈ cs.stored) ∧ blks.map BlockHeader.cid = tsk := by
  induction tsk generalizing blks with
  | nil =>
    cases h
    exact ⟨forall_mem_nil _, rfl⟩
  | cons c rest ih =>
    unfold getBlocks at h
    split at h
    · cases h
    · cases h
    · next b blks' hb hblks =>
      cases h
      obtain ⟨hmem, rfl⟩ := getBlock_ok hb
      obtain ⟨hstored, rfl⟩ := ih hblks
      exact ⟨forall_mem_cons.mpr ⟨hmem, hstored⟩, rfl⟩

theorem headers_map_cid (h : ∀ b ∈ blks, u.Knows b) :
    u.headers (blks.map BlockHeader.cid) = some blks := by
  induction blks with
  | nil => rfl
  | cons b rest ih =>
    obtain ⟨hb, hrest⟩ := forall_mem_cons.mp h
    unfold headers
    rw [map_cons]
    dsimp only
    rw [show u.header b.cid = some b from hb, ih hrest]

theorem loadTipSet_eq_ok {tsk : TipSetKey} (h : loadTipSet env cs tsk = .ok ts) :
    ∃ blks, getBlocks cs tsk = .ok blks ∧ newTipSet env blks = .ok ts := by
  unfold loadTipSet at h
  split at h
  · cases h
  next blks hblks =>
  refine ⟨blks, hblks, ?_⟩
  cases hnew : newTipSet env blks with
  | error e => rw [hnew] at h; cases h
  | ok ts' => rw [hnew] at h; cases h; rfl

theorem loadTipSet_parent (hback : u.Backs cs) (h : loadTipSet env cs ts.parents = .ok p) :
    u.parent env ts = some p := by
  obtain ⟨blks, hblks, hnew⟩ := loadTipSet_eq_ok h
  obtain ⟨hstored, hcids⟩ := getBlocks_spec hblks
  unfold parent load
  rw [← hcids, headers_map_cid fun b hb => hback b (hstored b hb)]
  simp only [hnew]

/-! ### What the walks read of the store -/

section

variable (hs : cs'.stored = cs.stored)
include hs

theorem getBlocks_congr (tsk : List BlockCid) : getBlocks cs' tsk = getBlocks cs tsk := by
  induction tsk with
  | nil => rfl
  | cons c rest ih =>
    unfold getBlocks getBlock
    rw [ih, hs]

theorem loadTipSet_congr (tsk : TipSetKey) : loadTipSet env cs' tsk = loadTipSet env cs tsk := by
  unfold loadTipSet
  rw [getBlocks_congr hs]

theorem walkExternal_congr (fuel : Nat) :
    walkExternal env cs' synced fuel external = walkExternal env cs synced fuel external := by
  induction fuel generalizing external with
  | zero => rfl
  | succ fuel ih =>
    unfold walkExternal
    simp only [loadTipSet_congr hs, ih]

theorem exceedsLoop_congr (hcp : cs'.checkpoint = cs.checkpoint) (rounds : Nat) :
    exceedsLoop env cs' rounds synced external = exceedsLoop env cs rounds synced external := by
  induction rounds generalizing synced external with
  | zero => rfl
  | succ rounds ih =>
    unfold exceedsLoop
    simp only [walkExternal_congr hs, loadTipSet_congr hs, hcp, ih]

end

theorem exceedsForkLength_heaviest (cs : ChainStore) (head o : Option TipSet) :
    exceedsForkLength env { cs with heaviest := head } o external =
      exceedsForkLength env cs o external := by
  cases o with
  | none => rfl
  | some synced =>
    apply exceedsLoop_congr <;> rfl

/-! ### The walks -/

/-- The walk down the external chain ends at an ancestor. -/
theorem walkExternal_ok (hback : u.Backs cs) {e : TipSet}
    (h : walkExternal env cs synced fuel external = .ok (some e)) :
    Descends (u.parent env) external e := by
  induction fuel generalizing external with
  | zero =>
    unfold walkExternal at h
    split_ifs at h
    · cases h
    · cases h
      exact .refl _
  | succ fuel ih =>
    unfold walkExternal at h
    split_ifs at h
    · cases h
    · dsimp only at h
      split at h
      · cases h
      · next hload => exact .of_parent (loadTipSet_parent hback hload) (ih h)
    · cases h
      exact .refl _

theorem walkExternal_returns (hback : u.Backs cs) (hext : u.Has external)
    (hfuel : external.height ≤ fuel) :
    walkExternal env cs synced fuel external ≠ .error .outOfFuel := by
  induction fuel generalizing external with
  | zero =>
    unfold walkExternal
    rw [if_neg (by omega)]
    exact nofun
  | succ fuel ih =>
    unfold walkExternal
    split_ifs
    · exact nofun
    · dsimp only
      split
      · exact nofun
      · next hload =>
        obtain ⟨hp, hlt⟩ := parent_spec hext (loadTipSet_parent hback hload)
        exact ih hp (by omega)
    · exact nofun

theorem descends_has (h : Descends (u.parent env) ts p) (hts : u.Has ts) : u.Has p := by
  induction h with
  | refl => exact hts
  | tail _ hp ih => exact (parent_spec ih hp).1

section

variable (hback : u.Backs cs)
include hback

/-- A fork within `rounds` goes back to a common ancestor, and not below the
checkpoint. -/
theorem exceedsLoop_false {rounds : Nat} (hs : u.Has synced) (he : u.Has external)
    (h : exceedsLoop env cs rounds synced external = .ok false) :
    ∃ n < rounds, ∃ c, Back (u.parent env) n synced c ∧ Descends (u.parent env) external c ∧
      ∀ cp, cs.checkpoint = some cp → Descends (u.parent env) synced cp →
        Descends (u.parent env) c cp := by
  induction rounds generalizing synced external with
  | zero => cases h
  | succ rounds ih =>
    unfold exceedsLoop at h
    split at h
    · cases h
    · cases h
    · next e hwalk =>
      have hdown := walkExternal_ok hback hwalk
      have hehas := descends_has hdown he
      split_ifs at h with heq hcheck hzero
      · obtain rfl := (equals_iff hs hehas).mp heq
        exact ⟨0, Nat.succ_pos _, synced, .here, hdown, fun cp _ hd => hd⟩
      · cases h
      · cases h
      · split at h
        · cases h
        next p hload =>
        have hp := loadTipSet_parent hback hload
        obtain ⟨n, hn, c, hb, hd, hkeep⟩ := ih (parent_spec hs hp).1 hehas h
        refine ⟨n + 1, Nat.succ_lt_succ hn, c, .link hp hb, hdown.trans hd, ?_⟩
        intro cp hcpeq hdesc
        have hne : synced ≠ cp := by
          rintro rfl
          rw [hcpeq] at hcheck
          exact hcheck ((equals_iff hs hs).mpr rfl)
        exact hkeep cp hcpeq (hdesc.parent_of_ne hne hp)

theorem exceedsLoop_returns {rounds : Nat} (hs : u.Has synced)
    (he : u.Has external) : exceedsLoop env cs rounds synced external ≠ .error .outOfFuel := by
  induction rounds generalizing synced external with
  | zero => exact nofun
  | succ rounds ih =>
    unfold exceedsLoop
    split
    · next hwalk =>
      intro h
      cases h
      exact walkExternal_returns hback he (le_refl _) hwalk
    · exact nofun
    · next e hwalk =>
      have hehas := descends_has (walkExternal_ok hback hwalk) he
      split_ifs
      · exact nofun
      · exact nofun
      · exact nofun
      · split
        · exact nofun
        · next hload =>
          exact ih (parent_spec hs (loadTipSet_parent hback hload)).1 hehas

theorem isAncestorLoop_ok {a : TipSet} (ha : u.Has a)
    {cur : TipSet} (hcur : u.Has cur) (h : isAncestorLoop env cs a fuel cur = .ok true) :
    Descends (u.parent env) cur a := by
  have hstop : ∀ {cur}, u.Has cur → cur.equals a = true → Descends (u.parent env) cur a := by
    intro cur hcur heq
    rw [(equals_iff hcur ha).mp heq]
    exact .refl _
  induction fuel generalizing cur with
  | zero =>
    unfold isAncestorLoop at h
    split_ifs at h
    exact hstop hcur (Except.ok.inj h)
  | succ fuel ih =>
    unfold isAncestorLoop at h
    split_ifs at h
    · dsimp only at h
      split at h
      · cases h
      next hload =>
      have hp := loadTipSet_parent hback hload
      exact .of_parent hp (ih (parent_spec hcur hp).1 h)
    · exact hstop hcur (Except.ok.inj h)

theorem isAncestorLoop_returns (a : TipSet)
    {cur : TipSet} (hcur : u.Has cur) (hfuel : cur.height ≤ fuel) :
    isAncestorLoop env cs a fuel cur ≠ .error .outOfFuel := by
  induction fuel generalizing cur with
  | zero =>
    unfold isAncestorLoop
    rw [if_neg (by omega)]
    exact nofun
  | succ fuel ih =>
    unfold isAncestorLoop
    split_ifs
    · dsimp only
      split
      · exact nofun
      · next hload =>
        obtain ⟨hp, hlt⟩ := parent_spec hcur (loadTipSet_parent hback hload)
        exact ih hp (by omega)
    · exact nofun

end

end StoreLemmas

end OpenDsn.Chain
