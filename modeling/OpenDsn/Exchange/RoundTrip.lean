import OpenDsn.Exchange.Protocol

/-!
# What is asked for arrives

The answer that a server builds passes the checks of the client, and the client expands
it to the tipsets of the server's store, every block with its own messages in their
order. It does not matter which messages the blocks of a tipset share.

* `gatherMessages_spec`: the compacted messages of a tipset expand to its blocks;
* `newTipSet_loaded`: the client sorts the blocks into the order that they came in;
* `newTipSet_reorder`: so it does with the blocks in any order;
* `exchange_round_trip`: the whole way, for every chain segment that the store has;
* `toFullTipSets_iff`: what any peer sends and the client accepts is expanded exactly if its
  indices fit in an `int`.
-/

namespace OpenDsn.Exchange

open Lib Chain Mpool List

/-- The blocks of a tipset with the messages that the store has for them. -/
def FullOf (env : ExchangeEnv) (ms : MsgStore) (ts : TipSet) (fts : FullTipSet) : Prop :=
  List.Forall₂ (fun b fb => fb.header = b ∧
    messagesForBlock env ms b = .ok (fb.blsMessages, fb.secpkMessages)) ts.blks fts.blocks

/-- The store has the tipset at a key and the ones below it, as many as are asked for or
down to the genesis, and their messages. -/
inductive Served (env : ExchangeEnv) (cs : ChainStore) (ms : MsgStore) :
    Nat → TipSetKey → List FullTipSet → Prop
  | one {cur : TipSetKey} {ts : TipSet} {fts : FullTipSet} :
      loadTipSet env.toStoreEnv cs cur = .ok ts → FullOf env ms ts fts →
      Served env cs ms 1 cur [fts]
  | genesis {n : Nat} {cur : TipSetKey} {ts : TipSet} {fts : FullTipSet} :
      loadTipSet env.toStoreEnv cs cur = .ok ts → FullOf env ms ts fts → ts.height = 0 →
      Served env cs ms (n + 1) cur [fts]
  | more {n : Nat} {cur : TipSetKey} {ts : TipSet} {fts : FullTipSet} {ftss : List FullTipSet} :
      loadTipSet env.toStoreEnv cs cur = .ok ts → FullOf env ms ts fts → ts.height ≠ 0 →
      Served env cs ms n ts.parents ftss → Served env cs ms (n + 1) cur (fts :: ftss)

variable {env : ExchangeEnv} {u : Headers} {cs : ChainStore} {ms : MsgStore} {ts : TipSet}

namespace RoundTripLemmas

open StoreLemmas Interned

/-! ### Messages -/

variable {M : Type} {get : MsgCid → Option M} {msgs : CompactedMessages} {fts : FullTipSet}
  {fbs : List FullBlock} {bs ss : List (List Nat)} {n : Nat} {cur : TipSetKey}

theorem loadFromCids_eq_ok {cids : List MsgCid} {msgs : List M} (i : Nat) :
    loadFromCids get i cids = .ok msgs ↔ cids.map get = msgs.map some := by
  induction cids generalizing i msgs with
  | nil => cases msgs <;> simp [loadFromCids]
  | cons c rest ih =>
    unfold loadFromCids
    cases hget : get c with
    | none => cases msgs <;> simp [hget]
    | some m =>
      have ih : ∀ msgs, loadFromCids get (i + 1) rest = .ok msgs ↔
        rest.map get = msgs.map some := fun _ => ih (i + 1)
      cases msgs with
      | nil => cases loadFromCids get (i + 1) rest <;> simp [Except.map]
      | cons m' msgs =>
        cases hrest : loadFromCids get (i + 1) rest with
        | error e | ok msgs' => rw [hrest] at ih; simp [Except.map, hget, ← ih]

/-- The CIDs of a block whose messages are in the store. -/
theorem messagesForBlock_eq_ok {b : BlockHeader} {bls : List Message}
    {secpk : List SignedMessage} (h : messagesForBlock env ms b = .ok (bls, secpk)) :
    ∃ bc sc, readMsgMetaCids ms (env.messages b) = .ok (bc, sc) ∧
      bc.map ms.getMessage = bls.map some ∧ sc.map ms.getSignedMessage = secpk.map some := by
  unfold messagesForBlock at h
  split at h
  · cases h
  next bc sc hread =>
  split at h
  · cases h
  · cases h
  · next hbls hsecpk =>
    cases h
    exact ⟨bc, sc, hread, (loadFromCids_eq_ok 0).mp hbls, (loadFromCids_eq_ok 0).mp hsecpk⟩

theorem FullOf.cids (h : FullOf env ms ts fts) : ∃ cids : List (List MsgCid × List MsgCid),
      List.Forall₂ (fun b c => readMsgMetaCids ms (env.messages b) = .ok c) ts.blks cids ∧
      List.Forall₂ (fun c fb => c.map ms.getMessage = fb.blsMessages.map some)
        (cids.map Prod.fst) fts.blocks ∧
      List.Forall₂ (fun c fb => c.map ms.getSignedMessage = fb.secpkMessages.map some)
        (cids.map Prod.snd) fts.blocks := by
  obtain ⟨fbs⟩ := fts
  unfold FullOf at h
  dsimp only at h ⊢
  generalize ts.blks = blks at h ⊢
  induction h with
  | nil => exact ⟨[], .nil, .nil, .nil⟩
  | cons hb _ ih =>
    obtain ⟨cids, hread, hbls, hsecpk⟩ := ih
    obtain ⟨bc, sc, hr, hb, hs⟩ := messagesForBlock_eq_ok hb.2
    exact ⟨(bc, sc) :: cids, .cons hr hread, .cons hb hbls, .cons hs hsecpk⟩

theorem FullOf.headers (h : FullOf env ms ts fts) : fts.blocks.map FullBlock.header = ts.blks := by
  obtain ⟨fbs⟩ := fts
  unfold FullOf at h
  dsimp only at h ⊢
  generalize ts.blks = blks at h ⊢
  induction h with
  | nil => rfl
  | cons hb _ ih => rw [map_cons, hb.1, ih]

/-- The loop interns the two kinds of messages one list after the other. -/
theorem gatherLoop_eq {blks : List BlockHeader} {cids : List (List MsgCid × List MsgCid)}
    (h : List.Forall₂ (fun b c => readMsgMetaCids ms (env.messages b) = .ok c) blks cids)
    (g : Gathered) :
    gatherLoop env ms blks g = .ok
      ⟨(g.bls.addLists (cids.map Prod.fst)).2, g.blsincl ++ (g.bls.addLists (cids.map Prod.fst)).1,
        (g.secpk.addLists (cids.map Prod.snd)).2,
        g.secpkincl ++ (g.secpk.addLists (cids.map Prod.snd)).1⟩ := by
  induction h generalizing g with
  | nil =>
    show Except.ok g = .ok ⟨g.bls, g.blsincl ++ [], g.secpk, g.secpkincl ++ []⟩
    rw [append_nil, append_nil]
  | @cons b c blks cids hread _ ih =>
    obtain ⟨bc, sc⟩ := c
    unfold gatherLoop
    rw [hread]
    refine (ih (g.addBlock bc sc)).trans ?_
    simp only [Gathered.addBlock, addLists, map_cons, append_assoc,
      singleton_append]

theorem loaded_of_some {cids : List MsgCid}
    (h : ∀ c ∈ cids, get c ≠ none) : ∃ msgs : List M, cids.map get = msgs.map some := by
  induction cids with
  | nil => exact ⟨[], rfl⟩
  | cons c rest ih =>
    obtain ⟨hc, hrest⟩ := forall_mem_cons.mp h
    obtain ⟨m, hm⟩ := Option.ne_none_iff_exists'.mp hc
    obtain ⟨msgs, hmsgs⟩ := ih hrest
    exact ⟨m :: msgs, by rw [map_cons, map_cons, hm, hmsgs]⟩

/-- One kind of messages: what was interned can be loaded, and the indices select the
messages of each block. -/
theorem interned_messages {B : Type} {own : B → List M}
    {lists : List (List MsgCid)} {fbs : List B}
    (h : List.Forall₂ (fun c fb => c.map get = (own fb).map some) lists fbs) :
    ∃ msgs, loadFromCids get 0 (Interned.empty.addLists lists).2.items = .ok msgs ∧
      List.Forall₂ (fun fb is => select msgs is = some (own fb)) fbs
        (Interned.empty.addLists lists).1 := by
  have hsome : ∀ cs ∈ lists, ∀ c ∈ cs, get c ≠ none := by
    induction h with
    | nil => exact fun _ hcs => nomatch hcs
    | cons hc _ ih =>
      refine forall_mem_cons.mpr ⟨fun c hmem hnone => ?_, ih⟩
      have hin := mem_map_of_mem (f := get) hmem
      rw [hc, hnone] at hin
      obtain ⟨m, -, hm⟩ := mem_map.mp hin
      cases hm
  have hitems : ∀ c ∈ (empty.addLists lists).2.items, get c ≠ none := by
    intro c hc
    rcases mem_addLists_items hc with hc | ⟨cs, hcs, hc⟩
    · cases hc
    · exact hsome cs hcs c hc
  obtain ⟨msgs, hmsgs⟩ := loaded_of_some hitems
  refine ⟨msgs, (loadFromCids_eq_ok 0).mpr hmsgs, ?_⟩
  have hsel := addLists_select empty lists prefix_rfl
  generalize (empty.addLists lists).1 = iss at hsel ⊢
  generalize (empty.addLists lists).2.items = items at hmsgs hsel
  clear hsome hitems
  induction h generalizing iss with
  | nil => cases hsel; exact .nil
  | cons hc _ ih =>
    cases hsel with
    | cons hs hsel => exact .cons (select_eq_some.mpr ((select_map hmsgs hs).trans hc)) (ih _ hsel)

variable (msgs fts) in
/-- What the compacted messages of a tipset give back. -/
structure Compacts : Prop where
  bls : List.Forall₂ (fun fb is => select msgs.bls is = some fb.blsMessages)
    fts.blocks msgs.blsIncludes
  secpk : List.Forall₂ (fun fb is => select msgs.secpk is = some fb.secpkMessages)
    fts.blocks msgs.secpkIncludes

theorem gatherMessages_spec (h : FullOf env ms ts fts) :
    ∃ msgs, gatherMessages env ms ts = .ok msgs ∧ Compacts msgs fts := by
  obtain ⟨cids, hread, hbls, hsecpk⟩ := FullOf.cids h
  obtain ⟨bls, hb, hbsel⟩ := interned_messages hbls
  obtain ⟨secpk, hs, hssel⟩ := interned_messages hsecpk
  refine ⟨⟨bls, _, secpk, _⟩, ?_, ⟨hbsel, hssel⟩⟩
  unfold gatherMessages loadMessagesFromCids loadSignedMessagesFromCids
  rw [gatherLoop_eq hread]
  dsimp only [Gathered.start]
  rw [hb, hs]
  rfl

/-! ### The client's checks of the messages -/

theorem toInt_lt {mi : Nat} (h : mi < n) : toInt mi < n := by
  unfold toInt
  split <;> omega

theorem checkIndices_ok {exceeds : Nat → Nat → ProcessError} {is : List Nat}
    (h : ∀ i ∈ is, i < n) : checkIndices exceeds n is = .ok () := by
  induction is with
  | nil => rfl
  | cons i rest ih =>
    obtain ⟨hi, hrest⟩ := forall_mem_cons.mp h
    unfold checkIndices
    rw [if_neg (not_le.mpr (toInt_lt hi)), ih hrest]

theorem checkIncludes_ok (hb : ∀ is ∈ bs, ∀ i ∈ is, i < msgs.bls.length)
    (hs : ∀ is ∈ ss, ∀ i ∈ is, i < msgs.secpk.length) : checkIncludes msgs bs ss = .ok () := by
  induction bs generalizing ss with
  | nil => rfl
  | cons b bs ih =>
    cases ss with
    | nil => rfl
    | cons s ss =>
      obtain ⟨hb, hbs⟩ := forall_mem_cons.mp hb
      obtain ⟨hs, hss⟩ := forall_mem_cons.mp hs
      unfold checkIncludes
      rw [checkIndices_ok hb, checkIndices_ok hs]
      exact ih hbs hss

/-- Indices that select something are in range. -/
theorem includes_lt {msgs : List M} {own : FullBlock → List M} {iss : List (List Nat)}
    (h : List.Forall₂ (fun fb is => select msgs is = some (own fb)) fbs iss) :
    ∀ is ∈ iss, ∀ i ∈ is, i < msgs.length := by
  induction h with
  | nil => exact fun _ his => nomatch his
  | cons hsel _ ih => exact forall_mem_cons.mpr ⟨lt_of_select hsel, ih⟩

theorem checkMessages_ok (h : Compacts msgs fts) :
    checkMessages fts.blocks.length msgs = .ok () := by
  unfold checkMessages
  rw [if_neg (not_not.mpr h.bls.length_eq.symm), if_neg (not_not.mpr h.secpk.length_eq.symm)]
  exact checkIncludes_ok (includes_lt h.bls) (includes_lt h.secpk)

theorem expandBlocks_eq
    (hb : List.Forall₂ (fun fb is => select msgs.bls is = some fb.blsMessages) fbs bs)
    (hs : List.Forall₂ (fun fb is => select msgs.secpk is = some fb.secpkMessages) fbs ss) :
    expandBlocks msgs (fbs.map FullBlock.header) bs ss = some fbs := by
  induction hb generalizing ss with
  | nil => rfl
  | cons hb _ ih =>
    cases hs with
    | cons hs hss =>
      rw [map_cons]
      unfold expandBlocks
      rw [hb, hs, ih hss]
      rfl

/-! ### Tipsets keep their order -/

/-- Blocks are sorted by the digests of their tickets, and then by CID. -/
def sortKey (env : ExchangeEnv) (b : BlockHeader) : ℕ ×ₗ ℕ :=
  toLex (env.digest (env.ticket b), b.cid)

theorem sortFunc_iff (env : ExchangeEnv) (a b : BlockHeader) :
    tipsetSortFunc env.toStoreEnv a b = true ↔ sortKey env a < sortKey env b := by
  unfold tipsetSortFunc StoreEnv.less sortKey
  rw [Prod.Lex.toLex_lt_toLex]
  split
  · next h => simp [h]
  · next h =>
    have hne : env.digest (env.ticket a) ≠ env.digest (env.ticket b) :=
      fun heq => h (env.digest_inj heq)
    simp [hne]

/-- Blocks that differ in their CIDs are sorted into one order. -/
theorem sort_eq_of_perm (env : ExchangeEnv) {blks blks' : List BlockHeader}
    (hperm : blks'.Perm blks)
    (hcid : ∀ a ∈ blks, ∀ b ∈ blks, a.cid = b.cid → a = b) :
    env.sorter.sort (tipsetSortFunc env.toStoreEnv) blks' =
      env.sorter.sort (tipsetSortFunc env.toStoreEnv) blks := by
  have hsorted := fun l => env.sorter.sorted l (.of_key (sortFunc_iff env))
  have hmem := env.sorter.perm (tipsetSortFunc env.toStoreEnv) blks
  have hmem' := (env.sorter.perm (tipsetSortFunc env.toStoreEnv) blks').trans hperm
  refine (hmem'.trans hmem.symm).eq_of_pairwise (fun a b ha hb hab hba => ?_) (hsorted blks')
    (hsorted blks)
  rw [← Bool.not_eq_true, sortFunc_iff, not_lt] at hab hba
  refine hcid a (hmem'.mem_iff.mp ha) b (hmem.mem_iff.mp hb) ?_
  exact congrArg (fun key => (ofLex key).2) (le_antisymm hab hba)

section

variable {tsk : TipSetKey} (h : loadTipSet env.toStoreEnv cs tsk = .ok ts)
include h

theorem loadTipSet_has (hback : u.Backs cs) : u.Has ts := by
  obtain ⟨blks, hblks, hnew⟩ := loadTipSet_eq_ok h
  exact fun b hb => hback b ((getBlocks_spec hblks).1 b ((newTipSet_perm hnew).mem_iff.mp hb))

/-- The CIDs of a loaded tipset are those of its key, up to their order. -/
theorem cidArrsEqual_loaded :
    cidArrsEqual ts.cids tsk = true ∧ cidArrsEqual tsk ts.cids = true := by
  obtain ⟨blks, hblks, hnew⟩ := loadTipSet_eq_ok h
  have hperm : ts.cids.Perm tsk := by
    rw [← (getBlocks_spec hblks).2]
    exact (newTipSet_perm hnew).map _
  exact ⟨decide_eq_true ⟨hperm.length_eq, fun c hc => hperm.mem_iff.mpr hc⟩,
    decide_eq_true ⟨hperm.length_eq.symm, fun c hc => hperm.mem_iff.mp hc⟩⟩

/-- Sorting the blocks of a loaded tipset again changes nothing. -/
theorem newTipSet_loaded (hback : u.Backs cs) : newTipSet env.toStoreEnv ts.blks = .ok ts := by
  have hhas := loadTipSet_has h hback
  obtain ⟨blks, hblks, hnew⟩ := loadTipSet_eq_ok h
  have hsort := sort_eq_of_perm env (newTipSet_perm hnew).symm fun a ha b hb hcid => by
    have hka := hhas a ha
    have hkb := hhas b hb
    unfold Headers.Knows at hka hkb
    rw [hcid, hkb] at hka
    exact (Option.some.inj hka).symm
  unfold newTipSet at hnew ⊢
  rw [← hsort]
  exact hnew

end

/-! ### Segments -/

/-- A tipset on its way: in the store, compacted, and expanded again. -/
structure Entry where
  ts : TipSet
  msgs : CompactedMessages
  fts : FullTipSet

/-- What is sent for an entry. -/
def Entry.sent (e : Entry) : Option BSTipSet := some ⟨e.ts.blks.map some, some e.msgs⟩

variable (env cs) in
/-- The entry for the tipset at a key. -/
structure EntryAt (cur : TipSetKey) (e : Entry) : Prop where
  load : loadTipSet env.toStoreEnv cs cur = .ok e.ts
  compacts : Compacts e.msgs e.fts
  headers : e.fts.blocks.map FullBlock.header = e.ts.blks

/-- Entries from a key downwards. -/
inductive Segment (env : ExchangeEnv) (cs : ChainStore) : TipSetKey → List Entry → Prop
  | one {cur : TipSetKey} {e : Entry} : EntryAt env cs cur e → Segment env cs cur [e]
  | cons {cur : TipSetKey} {e e' : Entry} {es : List Entry} : EntryAt env cs cur e →
      Segment env cs e.ts.parents (e' :: es) → Segment env cs cur (e :: e' :: es)

def bothOptions : ParsedOptions := ⟨true, true⟩

section

variable {options : ParsedOptions} {bst : BSTipSet}
  (hload : loadTipSet env.toStoreEnv cs cur = .ok ts)
include hload

theorem collectTipSet_spec (hfull : FullOf env ms ts fts) :
    ∃ e, EntryAt env cs cur e ∧ e.ts = ts ∧ e.fts = fts ∧
      collectTipSet env ms bothOptions ts = .ok ⟨e.ts.blks.map some, some e.msgs⟩ := by
  obtain ⟨msgs, hgather, hcompacts⟩ := gatherMessages_spec hfull
  refine ⟨⟨ts, msgs, fts⟩, ⟨hload, hcompacts, FullOf.headers hfull⟩, rfl, rfl, ?_⟩
  unfold collectTipSet bothOptions
  rw [if_pos rfl, if_pos rfl, hgather]

theorem collectLoop_zero (hcollect : collectTipSet env ms options ts = .ok bst) :
    collectLoop env cs ms options 0 cur = .ok [some bst] := by
  rw [collectLoop, hload]
  dsimp only
  rw [hcollect]

theorem collectLoop_succ (hcollect : collectTipSet env ms options ts = .ok bst) (more : Nat) :
    collectLoop env cs ms options (more + 1) cur = if ts.height = 0 then .ok [some bst]
      else (collectLoop env cs ms options more ts.parents).map (some bst :: ·) := by
  rw [collectLoop, hload]
  dsimp only
  rw [hcollect]

end

theorem collectLoop_spec {ftss : List FullTipSet}
    (h : Served env cs ms n cur ftss) :
    ∃ es, Segment env cs cur es ∧ es.map Entry.fts = ftss ∧ es.length ≤ n ∧
      collectLoop env cs ms bothOptions (n - 1) cur = .ok (es.map Entry.sent) := by
  induction h with
  | one hload hfull =>
    obtain ⟨e, hat, -, hfts, hcollect⟩ := collectTipSet_spec hload hfull
    exact ⟨[e], .one hat, by rw [← hfts]; rfl, le_refl _, collectLoop_zero hload hcollect⟩
  | @genesis n _ _ _ hload hfull hheight =>
    obtain ⟨e, hat, -, hfts, hcollect⟩ := collectTipSet_spec hload hfull
    refine ⟨[e], .one hat, by rw [← hfts]; rfl, Nat.le_add_left _ _, ?_⟩
    cases n with
    | zero => exact collectLoop_zero hload hcollect
    | succ n => exact (collectLoop_succ hload hcollect n).trans (if_pos hheight)
  | @more n _ _ _ _ hload hfull hheight _ ih =>
    obtain ⟨e, hat, rfl, hfts, hcollect⟩ := collectTipSet_spec hload hfull
    obtain ⟨es, hseg, hfull, hlen, hloop⟩ := ih
    cases n with
    | zero => cases hseg <;> exact absurd hlen (Nat.not_succ_le_zero _)
    | succ n =>
      cases es with
      | nil => cases hseg
      | cons e' es =>
        refine ⟨e :: e' :: es, .cons hat hseg, by rw [map_cons, hfts, hfull],
          Nat.succ_le_succ hlen, ?_⟩
        refine (collectLoop_succ hload hcollect n).trans ?_
        rw [if_neg hheight, show collectLoop env cs ms bothOptions n e.ts.parents = _ from hloop]
        rfl

/-! ### The client's checks -/

variable {es : List Entry} {req : Request}

theorem presentBlocks_map_some (i : Nat) (blks : List BlockHeader) :
    presentBlocks i (blks.map some) = .ok blks := by
  induction blks generalizing i with
  | nil => rfl
  | cons b rest ih =>
    rw [map_cons, presentBlocks, ih]
    rfl

theorem Segment.forall_load (h : Segment env cs cur es) :
    ∀ e ∈ es, ∃ cur, EntryAt env cs cur e := by
  induction h with
  | one he => exact forall_mem_singleton.mpr ⟨_, he⟩
  | cons he _ ih => exact forall_mem_cons.mpr ⟨⟨_, he⟩, ih⟩

theorem extractTipSets_ok (hback : u.Backs cs) (h : ∀ e ∈ es, ∃ cur, EntryAt env cs cur e)
    (i : Nat) : extractTipSets env i (es.map Entry.sent) = .ok (es.map Entry.ts) := by
  induction es generalizing i with
  | nil => rfl
  | cons e rest ih =>
    obtain ⟨⟨cur, he⟩, hrest⟩ := forall_mem_cons.mp h
    rw [map_cons, Entry.sent, extractTipSets, presentBlocks_map_some]
    show (((newTipSet env.toStoreEnv e.ts.blks).mapError (ProcessError.invalidBlocks i)) >>= _) = _
    rw [newTipSet_loaded he.load hback]
    rw [ih hrest]
    rfl

theorem checkConnected_ok (hback : u.Backs cs) (h : Segment env cs cur es) (i : Nat) :
    checkConnected i (es.map Entry.ts) = .ok () := by
  induction h generalizing i with
  | one => rfl
  | @cons cur e e' es he hrest ih =>
    have he' : EntryAt env cs e.ts.parents e' := by cases hrest <;> assumption
    have hchild : isChildOf e.ts e'.ts = true := by
      have hparent := loadTipSet_parent hback he'.load
      have hlower := (parent_spec (loadTipSet_has he.load hback) hparent).2
      exact decide_eq_true ⟨(cidArrsEqual_loaded he'.load).2, hlower⟩
    rw [map_cons, map_cons, checkConnected, if_pos hchild]
    exact ih (i + 1)

theorem extractMessages_ok (i : Nat) :
    extractMessages i (es.map Entry.sent) = .ok (es.map Entry.msgs) := by
  induction es generalizing i with
  | nil => rfl
  | cons e rest ih =>
    rw [map_cons, Entry.sent, extractMessages, ih]
    rfl

theorem validateCompressedIndices_ok (h : ∀ e ∈ es, ∃ cur, EntryAt env cs cur e) :
    validateCompressedIndices (es.map Entry.sent) = .ok () := by
  induction es with
  | nil => rfl
  | cons e rest ih =>
    obtain ⟨⟨cur, he⟩, hrest⟩ := forall_mem_cons.mp h
    have hlen : (e.ts.blks.map some).length = e.fts.blocks.length := by
      rw [length_map, ← he.headers, length_map]
    rw [map_cons, Entry.sent, validateCompressedIndices, hlen, checkMessages_ok he.compacts]
    exact ih hrest

theorem expandTipSets_eq (h : ∀ e ∈ es, ∃ cur, EntryAt env cs cur e) :
    expandTipSets (es.map Entry.ts) (es.map Entry.msgs) = some (es.map Entry.fts) := by
  induction es with
  | nil => rfl
  | cons e rest ih =>
    obtain ⟨⟨cur, he⟩, hrest⟩ := forall_mem_cons.mp h
    rw [map_cons, map_cons, map_cons, expandTipSets, ← he.headers,
      expandBlocks_eq he.compacts.bls he.compacts.secpk, ih hrest]
    rfl

theorem checkHeaders_ok (hback : u.Backs cs) (h : Segment env cs req.head es) :
    checkHeaders env req (es.map Entry.sent) = .ok (es.map Entry.ts) := by
  have hhead : checkHead req (es.map Entry.ts) = .ok () := by
    cases h with
    | one he | cons he _ => exact if_pos (cidArrsEqual_loaded he.load).1
  unfold checkHeaders
  rw [extractTipSets_ok hback (Segment.forall_load h) 0]
  show (checkHead req (es.map Entry.ts) >>= fun _ => checkConnected 0 (es.map Entry.ts) >>= _) = _
  rw [hhead, checkConnected_ok hback h 0]
  rfl

theorem checkAllMessages_ok (h : Segment env cs cur es) (tipsets : List TipSet) :
    checkAllMessages bothOptions (es.map Entry.sent) tipsets = .ok (es.map Entry.msgs) := by
  unfold checkAllMessages
  rw [extractMessages_ok 0]
  show (validateCompressedIndices (es.map Entry.sent) >>= fun _ => _) = _
  rw [validateCompressedIndices_ok (Segment.forall_load h)]
  rfl

/-- The answer to a segment has the length and the status for it. -/
theorem checkLength_ok {chain : List (Option BSTipSet)} (hne : chain.length ≠ 0)
    (hle : chain.length ≤ req.length) (message : ErrorMessage) :
    checkLength req ⟨if chain.length < req.length then .partialChain else .ok, message, chain⟩ =
      .ok () := by
  unfold checkLength
  rw [if_neg hne, if_neg (not_lt.mpr hle)]
  by_cases hlt : chain.length < req.length
  · simp [hlt]
  · simp [hlt]

theorem statusToError_ok (c : Prop) [Decidable c] (message : ErrorMessage)
    (chain : List (Option BSTipSet)) :
    Response.statusToError ⟨if c then .partialChain else .ok, message, chain⟩ = .ok () := by
  by_cases hc : c
  · rw [if_pos hc]; rfl
  · rw [if_neg hc]; rfl

end RoundTripLemmas

open RoundTripLemmas in
/-- A request for headers and messages of tipsets that the store has: the client accepts
the answer, and expands it to these tipsets with their messages. -/
theorem exchange_round_trip (hback : u.Backs cs) {req : Request} {vreq : ValidatedRequest}
    (hvalid : validateRequest req = .ok vreq) (hheaders : vreq.options.includeHeaders = true)
    (hmessages : vreq.options.includeMessages = true) {ftss : List FullTipSet}
    (hserved : Served env cs ms req.length req.head ftss) (tipsets : List TipSet) :
    ∃ vres, processResponse env req (serviceRequest env cs ms vreq) tipsets = .ok vres ∧
      vres.toFullTipSets = some ftss := by
  obtain rfl : vreq = ⟨req.head, req.length, parseOptions req.options⟩ := by
    unfold validateRequest at hvalid
    dsimp only at hvalid
    split_ifs at hvalid
    exact (Except.ok.inj hvalid).symm
  have hoptions : parseOptions req.options = bothOptions := by
    generalize parseOptions req.options = options at hheaders hmessages
    obtain ⟨h, m⟩ := options
    cases hheaders
    cases hmessages
    rfl
  obtain ⟨es, hseg, rfl, hlen, hloop⟩ := collectLoop_spec hserved
  have hne : es.length ≠ 0 := by cases hseg <;> exact Nat.succ_ne_zero _
  refine ⟨⟨es.map Entry.ts, es.map Entry.msgs⟩, ?_, ?_⟩
  · unfold serviceRequest collectChainSegment
    rw [hoptions, hloop]
    unfold processResponse
    rw [hoptions, statusToError_ok, checkLength_ok (by simpa using hne) (by simpa using hlen)]
    show (checkHeaders env req (es.map Entry.sent) >>= fun tss =>
      checkAllMessages bothOptions (es.map Entry.sent) tipsets >>= fun msgs => _) = _
    rw [checkHeaders_ok hback hseg, checkAllMessages_ok hseg tipsets]
    rfl
  · unfold ValidatedResponse.toFullTipSets
    rw [if_neg (by simpa using hne)]
    exact expandTipSets_eq (Segment.forall_load hseg)

open RoundTripLemmas in
/-- What `NewTipSet` makes of blocks does not depend on their order. -/
theorem newTipSet_reorder (env : ExchangeEnv) {blks blks' : List BlockHeader}
    (hcids : (blks.map BlockHeader.cid).Nodup) (hperm : blks'.Perm blks) :
    newTipSet env.toStoreEnv blks' = newTipSet env.toStoreEnv blks := by
  unfold newTipSet
  rw [sort_eq_of_perm env hperm (inj_on_of_nodup_map hcids)]

/-! ## The answer of any peer -/

/-- The indices are not negative as an `int`. -/
def CompactedMessages.SmallIndices (msgs : CompactedMessages) : Prop :=
  ∀ is ∈ msgs.blsIncludes ++ msgs.secpkIncludes, ∀ mi ∈ is, mi < 2 ^ 63

/-- The blocks have no other messages than `msgs`. -/
def FullTipSet.MessagesOf (fts : FullTipSet) (msgs : CompactedMessages) : Prop :=
  ∀ b ∈ fts.blocks, b.blsMessages ⊆ msgs.bls ∧ b.secpkMessages ⊆ msgs.secpk

namespace RoundTripLemmas

open StoreLemmas

variable {msgs : CompactedMessages} {blocks : List (Option BlockHeader)} {blks : List BlockHeader}
  {bs ss : List (List Nat)}

theorem select_of_checkIndices {M : Type} {items : List M} {exceeds : Nat → Nat → ProcessError}
    {is : List Nat} (h : checkIndices exceeds items.length is = .ok ())
    (hsmall : ∀ mi ∈ is, mi < 2 ^ 63) : ∃ ms, select items is = some ms ∧ ms ⊆ items := by
  induction is with
  | nil => exact ⟨[], rfl, nil_subset _⟩
  | cons mi is ih =>
    obtain ⟨hmi, hsmall⟩ := forall_mem_cons.mp hsmall
    unfold checkIndices at h
    split at h
    · cases h
    next hlt =>
    rw [toInt, if_pos hmi, ge_iff_le, Nat.cast_le, not_le] at hlt
    obtain ⟨ms, hms, hsub⟩ := ih h hsmall
    refine ⟨items[mi] :: ms, ?_, cons_subset.mpr ⟨getElem_mem hlt, hsub⟩⟩
    rw [select, getElem?_eq_getElem hlt, hms]

theorem expandBlocks_of_checkIncludes (h : checkIncludes msgs bs ss = .ok ())
    (hsmall : ∀ is ∈ bs ++ ss, ∀ mi ∈ is, mi < 2 ^ 63)
    (hb : bs.length = blks.length) (hs : ss.length = blks.length) :
    ∃ fbs, expandBlocks msgs blks bs ss = some fbs ∧ FullTipSet.MessagesOf ⟨fbs⟩ msgs := by
  induction blks generalizing bs ss with
  | nil => exact ⟨[], by rw [expandBlocks], forall_mem_nil _⟩
  | cons b blks ih =>
    obtain ⟨bmi, bs, rfl⟩ := exists_of_length_succ bs hb
    obtain ⟨smi, ss, rfl⟩ := exists_of_length_succ ss hs
    obtain ⟨_, hbmi, h⟩ := ok_of_bind h
    obtain ⟨_, hsmi, h⟩ := ok_of_bind h
    simp only [forall_mem_append, forall_mem_cons] at hsmall
    obtain ⟨⟨hbsmall, hbs⟩, hssmall, hss⟩ := hsmall
    obtain ⟨bls, hbls, hblsub⟩ := select_of_checkIndices hbmi hbsmall
    obtain ⟨secpk, hsecpk, hsecsub⟩ := select_of_checkIndices hsmi hssmall
    obtain ⟨fbs, hfbs, hof⟩ := ih h (forall_mem_append.mpr ⟨hbs, hss⟩) (Nat.succ.inj hb)
      (Nat.succ.inj hs)
    refine ⟨⟨b, bls, secpk⟩ :: fbs, ?_, forall_mem_cons.mpr ⟨⟨hblsub, hsecsub⟩, hof⟩⟩
    rw [expandBlocks, hbls, hsecpk, hfbs]
    rfl

/-- What is selected is in range, and no slice is that long. -/
theorem small_of_expandBlocks {fbs : List FullBlock}
    (hslices : msgs.bls.length ≤ 2 ^ 63 ∧ msgs.secpk.length ≤ 2 ^ 63)
    (hb : bs.length = blks.length) (hs : ss.length = blks.length)
    (h : expandBlocks msgs blks bs ss = some fbs) : ∀ is ∈ bs ++ ss, ∀ mi ∈ is, mi < 2 ^ 63 := by
  induction blks generalizing bs ss fbs with
  | nil =>
    rw [length_eq_zero_iff.mp hb, length_eq_zero_iff.mp hs]
    exact forall_mem_nil _
  | cons b blks ih =>
    obtain ⟨bmi, bs, rfl⟩ := exists_of_length_succ bs hb
    obtain ⟨smi, ss, rfl⟩ := exists_of_length_succ ss hs
    obtain ⟨bls, hbls, h⟩ := Option.bind_eq_some_iff.mp h
    obtain ⟨secpk, hsecpk, h⟩ := Option.bind_eq_some_iff.mp h
    obtain ⟨rest, hrest, -⟩ := Option.bind_eq_some_iff.mp h
    have hsmall := ih (Nat.succ.inj hb) (Nat.succ.inj hs) hrest
    simp only [forall_mem_append, forall_mem_cons] at hsmall ⊢
    exact ⟨⟨fun mi hmi => (lt_of_select hbls mi hmi).trans_le hslices.1, hsmall.1⟩,
      fun mi hmi => (lt_of_select hsecpk mi hmi).trans_le hslices.2, hsmall.2⟩

theorem length_presentBlocks {i : Nat} (h : presentBlocks i blocks = .ok blks) :
    blks.length = blocks.length := by
  induction blocks generalizing i blks with
  | nil => cases h; rfl
  | cons b blocks ih =>
    cases b with
    | none => cases h
    | some b =>
      obtain ⟨rest, hrest, rfl⟩ := ok_of_map h
      rw [length_cons, length_cons, ih hrest]

/-- A tipset that was accepted, and its messages. -/
theorem expandBlocks_of_check (hblks : presentBlocks 0 blocks = .ok blks)
    (hnew : newTipSet env.toStoreEnv blks = .ok ts)
    (hcheck : checkMessages blocks.length msgs = .ok ())
    (hslices : msgs.bls.length ≤ 2 ^ 63 ∧ msgs.secpk.length ≤ 2 ^ 63) :
    (∀ fbs, expandBlocks msgs ts.blks msgs.blsIncludes msgs.secpkIncludes = some fbs →
        msgs.SmallIndices) ∧
      (msgs.SmallIndices → ∃ fbs, expandBlocks msgs ts.blks msgs.blsIncludes msgs.secpkIncludes =
        some fbs ∧ FullTipSet.MessagesOf ⟨fbs⟩ msgs) := by
  have hlen := (newTipSet_perm hnew).length_eq.trans (length_presentBlocks hblks)
  unfold checkMessages at hcheck
  split_ifs at hcheck with hbls hsecpk
  rw [not_not, ← hlen] at hbls hsecpk
  exact ⟨fun _ => small_of_expandBlocks hslices hbls hsecpk,
    fun hsmall => expandBlocks_of_checkIncludes hcheck hsmall hbls hsecpk⟩

theorem expandTipSets_of_check {i j : Nat} {chain : List (Option BSTipSet)} {tss : List TipSet}
    {ms : List CompactedMessages} (hts : extractTipSets env i chain = .ok tss)
    (hms : extractMessages j chain = .ok ms) (hcheck : validateCompressedIndices chain = .ok ())
    (hslices : ∀ msgs ∈ ms, msgs.bls.length ≤ 2 ^ 63 ∧ msgs.secpk.length ≤ 2 ^ 63) :
    ms.map some = chain.map (·.bind BSTipSet.messages) ∧ tss.length = ms.length ∧
      (∀ ftss, expandTipSets tss ms = some ftss → ∀ msgs ∈ ms, msgs.SmallIndices) ∧
      ((∀ msgs ∈ ms, msgs.SmallIndices) → ∃ ftss, expandTipSets tss ms = some ftss ∧
        List.Forall₂ FullTipSet.MessagesOf ftss ms) := by
  induction chain generalizing i j tss ms with
  | nil =>
    cases hts
    cases hms
    exact ⟨rfl, rfl, fun _ _ => forall_mem_nil _, fun _ => ⟨[], rfl, .nil⟩⟩
  | cons sent chain ih =>
    unfold validateCompressedIndices at hcheck
    split at hcheck
    · contradiction
    · next blocks msgs rest heq =>
      obtain ⟨rfl, rfl⟩ := List.cons.inj heq
      obtain ⟨_, hmsgs, hcheck⟩ := ok_of_bind hcheck
      obtain ⟨blks, hblks, hts⟩ := ok_of_bind hts
      obtain ⟨ts, hnew, hts⟩ := ok_of_bind hts
      obtain ⟨tss, htss, hts⟩ := ok_of_bind hts
      cases hts
      obtain ⟨ms, hrest, rfl⟩ := ok_of_map hms
      obtain ⟨hfirst, hslices⟩ := forall_mem_cons.mp hslices
      cases hts : newTipSet env.toStoreEnv blks with
      | error e => rw [hts] at hnew; cases hnew
      | ok ts' =>
        rw [hts] at hnew
        cases hnew
        obtain ⟨hsmall, hexpand⟩ := expandBlocks_of_check hblks hts hmsgs hfirst
        obtain ⟨hsent, hlen, hsmalls, hexpands⟩ := ih htss hrest hcheck hslices
        refine ⟨congrArg (some msgs :: ·) hsent, congrArg Nat.succ hlen, fun ftss h => ?_,
          fun h => ?_⟩
        · obtain ⟨fbs, hfbs, h⟩ := Option.bind_eq_some_iff.mp h
          obtain ⟨ftss, hftss, -⟩ := Option.bind_eq_some_iff.mp h
          exact forall_mem_cons.mpr ⟨hsmall fbs hfbs, hsmalls ftss hftss⟩
        · obtain ⟨hone, h⟩ := forall_mem_cons.mp h
          obtain ⟨fbs, hfbs, hof⟩ := hexpand hone
          obtain ⟨ftss, hftss, hall⟩ := hexpands h
          refine ⟨⟨fbs⟩ :: ftss, ?_, .cons hof hall⟩
          rw [expandTipSets, hfbs, hftss]
          rfl
    · cases hcheck

end RoundTripLemmas

open RoundTripLemmas in
/-- An answer with headers and messages that is accepted, and has slices of less than `2 ^ 63`
messages: it is expanded, with messages in each tipset only that were sent for it, exactly when all
indices are below `2 ^ 63`. -/
theorem toFullTipSets_iff {req : Request} {res : Response} {tipsets : List TipSet}
    {vres : ValidatedResponse} (hoptions : parseOptions req.options = bothOptions)
    (h : processResponse env req res tipsets = .ok vres)
    (hslices : ∀ msgs ∈ vres.messages, msgs.bls.length ≤ 2 ^ 63 ∧ msgs.secpk.length ≤ 2 ^ 63) :
    (∃ ftss, vres.toFullTipSets = some ftss ∧
        List.Forall₂ FullTipSet.MessagesOf ftss vres.messages ∧
        vres.messages.map some = res.chain.map (·.bind BSTipSet.messages)) ↔
      ∀ msgs ∈ vres.messages, msgs.SmallIndices := by
  obtain ⟨-, -, h⟩ := ok_of_bind h
  rw [hoptions] at h
  obtain ⟨-, -, h⟩ := ok_of_bind h
  obtain ⟨-, -, h⟩ := ok_of_bind h
  obtain ⟨tss, htss, h⟩ := ok_of_bind h
  obtain ⟨ms, hms, h⟩ := ok_of_bind h
  cases h
  obtain ⟨_, hextract, htss⟩ := ok_of_bind htss
  obtain ⟨-, -, htss⟩ := ok_of_bind htss
  obtain ⟨-, -, htss⟩ := ok_of_bind htss
  cases htss
  obtain ⟨_, hmessages, hms⟩ := ok_of_bind hms
  obtain ⟨_, hcheck, hms⟩ := ok_of_bind hms
  cases hms
  obtain ⟨hsent, hlen, hsmall, hexpand⟩ :=
    expandTipSets_of_check hextract hmessages hcheck hslices
  have hfull : ValidatedResponse.toFullTipSets ⟨tss, ms⟩ = expandTipSets tss ms := by
    unfold ValidatedResponse.toFullTipSets
    split
    · next hnone =>
      have hnil : tss = [] := length_eq_zero_iff.mp (hnone.resolve_right (not_not.mpr hlen))
      rw [hnil]
      rfl
    · rfl
  rw [hfull]
  refine ⟨fun ⟨ftss, hftss, _⟩ => hsmall ftss hftss, fun h => ?_⟩
  obtain ⟨ftss, hftss, hall⟩ := hexpand h
  exact ⟨ftss, hftss, hall, hsent⟩

/-! ## A request -/

/-- A genesis block and two blocks on it. -/
def twoOnGenesis : List BlockHeader := [⟨10, [], 0, 0⟩, ⟨11, [10], 1, 0⟩, ⟨12, [10], 1, 0⟩]

def twoHeaders : Headers where
  header c := twoOnGenesis.find? (·.cid = c)
  header_cid h := by simpa using List.find?_some h
  parent_lower h hp hpb := by
    have hlower : ∀ b ∈ twoOnGenesis, ∀ pb ∈ twoOnGenesis, pb.cid ∈ b.parents →
      pb.height < b.height := by decide
    have hcid := List.find?_some hpb
    obtain rfl := of_decide_eq_true hcid
    exact hlower _ (List.mem_of_find?_eq_some h) _ (List.mem_of_find?_eq_some hpb) hp

def twoStore : ChainStore := ⟨twoOnGenesis, fun _ => [], none, none⟩

/-- The digest of a ticket is a code for it. -/
def codedEnv : ExchangeEnv where
  sorter := stableSorter
  miner b := b.cid
  ticket b := [UInt8.ofNat b.cid]
  digest t := Encodable.encode (t.map UInt8.toNat)
  weight _ := none
  messages b := b.cid
  digest_inj h := List.map_injective_iff.mpr (fun _ _ => UInt8.toNat_inj.mp)
    (Encodable.encode_injective h)

theorem newTipSet_reorder_two :
    newTipSet codedEnv.toStoreEnv [⟨12, [10], 1, 0⟩, ⟨11, [10], 1, 0⟩] =
      newTipSet codedEnv.toStoreEnv [⟨11, [10], 1, 0⟩, ⟨12, [10], 1, 0⟩] :=
  newTipSet_reorder codedEnv (by decide) (.swap _ _ [])

def sampleMessage (nonce : Nat) : Message :=
  ⟨0, .id 1, .id 2, nonce, 0, 1, 1, 1, 0, []⟩

def sampleSigned (nonce : Nat) : SignedMessage :=
  ⟨sampleMessage nonce, ⟨.secp256k1, []⟩⟩

/-- The second block has the messages of the first one in another order, one of them
twice, and a signed one. -/
def sharedMessages : MsgStore where
  msgMeta mmc := some ⟨mmc, mmc + 100⟩
  readAMTCids
    | 11 => some [.message (sampleMessage 0), .message (sampleMessage 1)]
    | 12 => some [.message (sampleMessage 1), .message (sampleMessage 0),
        .message (sampleMessage 1)]
    | 112 => some [.signed (sampleSigned 2)]
    | _ => some []
  getMessage
    | .message m => some m
    | .signed _ => none
  getSignedMessage
    | .message _ => none
    | .signed sm => some sm

/-- Five tipsets are asked for, and the two that there are arrive. -/
theorem exchange_round_trip_shared :
    ∃ vres, processResponse codedEnv ⟨[12, 11], 5, 3⟩
        (serviceRequest codedEnv twoStore sharedMessages ⟨[12, 11], 5, parseOptions 3⟩) [] =
        .ok vres ∧
      vres.toFullTipSets = some
        [⟨[⟨⟨11, [10], 1, 0⟩, [sampleMessage 0, sampleMessage 1], []⟩,
          ⟨⟨12, [10], 1, 0⟩, [sampleMessage 1, sampleMessage 0, sampleMessage 1],
            [sampleSigned 2]⟩]⟩,
        ⟨[⟨⟨10, [], 0, 0⟩, [], []⟩]⟩] := by
  have hback : ∀ b ∈ twoStore.stored, twoHeaders.Knows b := by decide
  refine exchange_round_trip (u := twoHeaders) hback rfl rfl rfl ?_ []
  refine .more rfl (.cons ⟨rfl, rfl⟩ (.cons ⟨rfl, rfl⟩ .nil)) (by decide) ?_
  exact .genesis rfl (.cons ⟨rfl, rfl⟩ .nil) rfl

/-- An answer with the genesis block, and one index of a message. -/
def indexAnswer (mi : Nat) (bls : List Message) : Response :=
  ⟨.ok, .none, [some ⟨[some ⟨10, [], 0, 0⟩], some ⟨bls, [[mi]], [], [[]]⟩⟩]⟩

/-- An index from `2 ^ 63` on is negative as an `int` and passes the check, but there is no
message at it. -/
theorem toFullTipSets_panics :
    ∃ vres, processResponse codedEnv ⟨[10], 1, 3⟩ (indexAnswer (2 ^ 63) []) [] = .ok vres ∧
      vres.toFullTipSets = none := ⟨_, rfl, rfl⟩

theorem toFullTipSets_iff_one :
    ∃ vres ftss,
      processResponse codedEnv ⟨[10], 1, 3⟩ (indexAnswer 0 [sampleMessage 0]) [] = .ok vres ∧
      vres.toFullTipSets = some ftss ∧ List.Forall₂ FullTipSet.MessagesOf ftss vres.messages := by
  have h : processResponse codedEnv ⟨[10], 1, 3⟩ (indexAnswer 0 [sampleMessage 0]) [] = .ok _ := rfl
  obtain ⟨ftss, hftss, hall, -⟩ := (toFullTipSets_iff rfl h
    (forall_mem_singleton.mpr (by decide))).mpr
    (forall_mem_singleton.mpr (by simp [CompactedMessages.SmallIndices]))
  exact ⟨_, ftss, h, hftss, hall⟩

end OpenDsn.Exchange
