import OpenDsn.Mpool.Accounts
import OpenDsn.Mpool.Optimal

/-!
# Message selection

`SelectMessages` of `chain/messagepool/selection.go`: the pending messages as seen
from the target tipset, the chains of the priority senders, then greedy or optimal
selection from the other chains.

The pending messages are kept by the key address of their sender, but the messages
of reverted blocks are put in under the address that the message carries. Where
such a message names its sender by another address than the key address, the sender
has two entries, two lists of chains, and may appear twice in a block.

* `selectMessages_selected`: where no account has its next message under two
  addresses, the selected messages are a correct block;
* `oneAddress_of_keySenders`: no account has that when blocks name their senders by
  key addresses;
* `selectMessages_repeats_nonce`: where one has, the block may be incorrect.
-/

namespace OpenDsn.Mpool

open Lib Chain List

/-! ## `SelectMessages` -/

section

variable (env : Env) (mp : Pool)

/-- The loop over the priority addresses: the pending messages that are left and
the chains, or `none` where an address cannot be resolved. -/
def priorityGroups (env : Env) (mp : Pool) (baseFee : Int) (ts : TipSet) :
    List Address → MsgMap → List ChainGroup → MsgMap × Option (List ChainGroup)
  | [], pending, gs => (pending, some gs)
  | actor :: rest, pending, gs =>
      match resolveToKey env mp.curTs actor with
      | none => (pending, none)
      | some pk =>
          match pending.get? (.key pk) with
          | none => priorityGroups env mp baseFee ts rest pending gs
          | some mset =>
              priorityGroups env mp baseFee ts rest (pending.erase (.key pk))
                (gs ++ [⟨.key pk, createMessageChains env (.key pk) actor mset baseFee ts⟩])

/-- Nothing is selected yet. -/
def noneSelected : SelectedMessages := ⟨[], blockGasLimit, maxLength, maxLength⟩

def selectPriorityMessages (pending : MsgMap) (baseFee : Int) (ts : TipSet) :
    MsgMap × Option SelectedMessages :=
  match priorityGroups env mp baseFee ts env.cfg.priorityAddrs pending [] with
  | (pending', none) => (pending', some noneSelected)
  | (pending', some gs) =>
      (pending', selectGreedy env (Heap.ofGroups gs) (chainIds gs) noneSelected baseFee)

/-- The chains of all senders with pending messages. -/
def pendingGroups (pending : MsgMap) (baseFee : Int) (ts : TipSet) : List ChainGroup :=
  (env.order.arrange (pending.entries.map fun e => (e.1, e.2))).map fun e =>
    ⟨e.1, createMessageChains env e.1 e.1 e.2 baseFee ts⟩

/-- What the two selections share. `full` says that the priority messages fill the
block, and `pick` selects from the other chains. The outer `none` stands for a loop
that ran out of fuel, the inner one for no pending messages. -/
def selectWith (ts : TipSet) (full : SelectedMessages → Bool)
    (pick : Heap → List ChainId → SelectedMessages → Int → Option SelectedMessages) :
    Option (Except MpoolError (Option SelectedMessages)) :=
  match env.chainComputeBaseFee ts with
  | none => some (.error .baseFee)
  | some baseFee =>
      match getPendingMessages env mp mp.curTs ts with
      | .error e => some (.error e)
      | .ok pending =>
          if pending.size = 0 then some (.ok none)
          else
            match selectPriorityMessages env mp pending baseFee ts with
            | (_, none) => none
            | (pending', some result) =>
                if full result then some (.ok (some result))
                else
                  let gs := pendingGroups env pending' baseFee ts
                  (pick (Heap.ofGroups gs) (chainIds gs) result baseFee).map fun sm => .ok (some sm)

def selectMessagesGreedy (ts : TipSet) : Option (Except MpoolError (Option SelectedMessages)) :=
  selectWith env mp ts (fun r => r.gasLimit < minGas || r.room < 0) (selectGreedy env)

end

def selectMessagesOptimal (env : Env) (choices : Choices) (mp : Pool) (ts : TipSet) (tq : ℚ) :
    Option (Except MpoolError (Option SelectedMessages)) :=
  selectWith env mp ts (fun r => r.gasLimit < minGas || r.room ≤ 0)
    fun h ids sm baseFee => selectOptimal env choices h ids sm baseFee tq

def selectMessages (env : Env) (choices : Choices) (mp : Pool) (ts : TipSet) (tq : ℚ) :
    Option (Except MpoolError (List SignedMessage)) :=
  let selected := if tq > 84 / 100 then selectMessagesGreedy env mp ts
    else selectMessagesOptimal env choices mp ts tq
  selected.map fun r => r.map fun
    | none => []
    -- one last sanity check
    | some sm => sm.msgs.take blockMessageLimit

/-! ## Correct selections -/

variable {env : Env} {p : Piece Address SignedMessage} {m : SignedMessage} {pending' : MsgMap}
  {g : ChainGroup} {acc : Accounts env} {mp : Pool}

/-- A message of a block that is reverted on the way to `ts`. -/
def Reverted (env : Env) (mp : Pool) (ts : TipSet) (m : SignedMessage) : Prop :=
  ∃ revert apply, reorgOps env.loadTipSet mp.curTs ts = some (revert, apply) ∧
    ∃ r ∈ revert, ∃ msgs, messagesForBlocks env r.blks = some msgs ∧ m ∈ msgs

/-- A message that waits under the address `a`: it is pending for the key address
`a`, or `a` is the sender that a message of a reverted block names. -/
def Waiting (env : Env) (mp : Pool) (ts : TipSet) (a : Address) (m : SignedMessage) : Prop :=
  (∃ k, a = .key k ∧ mp.pendingAt k m.message.nonce = some m) ∨
    a = m.message.fromAddr ∧ Reverted env mp ts m

/-- No account has a message with its next nonce at `ts` under two addresses. -/
def OneAddress (acc : Accounts env) (mp : Pool) (ts : TipSet) : Prop :=
  ∀ a b m m' act, Waiting env mp ts a m → Waiting env mp ts b m' →
    acc.account a = acc.account b → env.getActorAfter a ts = some act →
    m.message.nonce = act.nonce → m'.message.nonce = act.nonce → a = b

/-- The messages that an account sends. -/
def sentBy (acc : Accounts env) (a : Address) (msgs : List SignedMessage) : List SignedMessage :=
  msgs.filter fun m => acc.account m.message.fromAddr = a

/-- A correct selection for a block on `ts`. -/
structure Selected (acc : Accounts env) (ts : TipSet) (msgs : List SignedMessage) : Prop where
  nodup : msgs.Nodup
  nonces : ∀ a, sentBy acc a msgs ≠ [] → ∃ act, env.getActorAfter a ts = some act ∧
    (sentBy acc a msgs).map (·.message.nonce) = List.range' act.nonce (sentBy acc a msgs).length
  gas : gasOf msgs ≤ blockGasLimit
  count : msgs.length ≤ blockMessageLimit
  bls : countType .bls msgs ≤ maxLength
  secp : countType .secp256k1 msgs ≤ maxLength

namespace SelectionLemmas

open AccountsLemmas ChainsLemmas GreedyLemmas HeadChangeLemmas

variable {acc : Accounts env} {mp : Pool} {ts : TipSet} {pending : MsgMap} {baseFee : Int}
  {gs gs' : List ChainGroup} {T : List (Piece Address SignedMessage)}

/-! ## The pending messages -/

variable (acc mp ts) in
/-- What is known of a message under an address and a nonce. -/
structure Held (a : Address) (n : Nat) (m : SignedMessage) : Prop where
  nonce : m.message.nonce = n
  waiting : Waiting env mp ts a m
  account : acc.account m.message.fromAddr = acc.account a
  sigType : m.signature.type = acc.sigType (acc.account a)

variable (acc mp ts) in
/-- Every message of the map is where it belongs. -/
def AllHeld (q : MsgMap) : Prop :=
  ∀ a n m, q.at a n = some m → Held acc mp ts a n m

theorem allHeld_pendingMap (hpool : WellKeyed acc.account mp) :
    AllHeld acc mp ts mp.pendingMap := by
  intro a n m hm
  by_cases ha : ∃ k, Address.key k = a
  · obtain ⟨k, rfl⟩ := ha
    rw [at_pendingMap] at hm
    obtain ⟨hnonce, haccount, hsig⟩ := hpool k n m hm
    refine ⟨hnonce, .inl ⟨k, rfl, by rw [hnonce]; exact hm⟩, ?_, ?_⟩
    · rw [haccount, acc.account_key]
    · rw [hsig, acc.account_key, acc.sigType_key]
  · rw [at_pendingMap_none mp fun k hk => ha ⟨k, hk⟩] at hm
    cases hm

theorem allHeld_put {q : MsgMap} (hq : AllHeld acc mp ts q)
    (hm : Reverted env mp ts m) (hsig : acc.Signed m) :
    AllHeld acc mp ts (q.put m) := by
  intro a n m' h
  rw [at_put] at h
  split at h
  · next hkey =>
    obtain ⟨rfl, rfl⟩ := hkey
    cases h
    exact ⟨rfl, .inr ⟨rfl, hm⟩, rfl, hsig⟩
  · exact hq a n m' h

theorem allHeld_revert {revert apply : List TipSet}
    (hops : reorgOps env.loadTipSet mp.curTs ts = some (revert, apply)) {st : CopyReplay}
    (hst : AllHeld acc mp ts st.rmsgs) {r : TipSet} (hr : r ∈ revert) :
    AllHeld acc mp ts (revertOnCopy env st r).rmsgs := by
  unfold revertOnCopy
  split
  · exact hst
  · next msgs hmsgs =>
    refine foldlRecOn msgs MsgMap.put hst fun q hq m hm => ?_
    exact allHeld_put hq ⟨revert, apply, hops, r, hr, msgs, hmsgs, hm⟩ (signed_of_mem hmsgs hm)

theorem getPendingMessages_held (hpool : WellKeyed acc.account mp)
    (h : getPendingMessages env mp mp.curTs ts = .ok pending) : AllHeld acc mp ts pending := by
  unfold getPendingMessages at h
  split at h
  · cases h
    exact allHeld_pendingMap hpool
  · unfold runHeadChange at h
    split at h
    · cases h
    next revert apply hops =>
    dsimp only at h
    split at h
    · cases h
    cases h
    have hrev : AllHeld acc mp ts
        (revert.foldl (revertOnCopy env) ⟨mp.pendingMap, false⟩).rmsgs :=
      foldlRecOn (motive := fun st : CopyReplay => AllHeld acc mp ts st.rmsgs) revert
        (revertOnCopy env) (allHeld_pendingMap hpool)
        fun st hst r hr => allHeld_revert hops hst hr
    intro a n m hm
    rw [applyOnCopy_rmsgs, at_foldl_del] at hm
    split at hm
    · cases hm
    · exact hrev a n m hm

/-! ## The chains of the senders -/

/-- The chains of a sender of the map `q`, made for an address of the same account. -/
def GroupFrom (acc : Accounts env) (baseFee : Int) (ts : TipSet) (q : MsgMap) (g : ChainGroup) :
    Prop :=
  ∃ actor mset, acc.account actor = acc.account g.owner ∧ q.get? g.owner = some mset ∧
    g.chains = createMessageChains env g.owner actor mset baseFee ts

/-- The chains, with the account nonce that they start from. -/
theorem group_spec (hq : AllHeld acc mp ts pending) (hg : GroupFrom acc baseFee ts pending g) :
    g.chains = [] ∨ ∃ act mset, env.getActorAfter g.owner ts = some act ∧
      pending.get? g.owner = some mset ∧ ChainsSpec g.owner mset act.nonce g.chains := by
  obtain ⟨actor, mset, haccount, hget, heq⟩ := hg
  have hactor := acc.actor_eq actor g.owner ts haccount
  cases hact : env.getActorAfter actor ts with
  | none =>
    unfold createMessageChains at heq
    rw [hact] at heq
    exact .inl heq
  | some act =>
    refine .inr ⟨act, mset, hactor.symm.trans hact, hget, ?_⟩
    rw [heq]
    refine createMessageChains_spec baseFee (fun n m hm => ?_) hact
    exact (hq g.owner n m (by rw [MsgMap.at, hget]; exact hm)).nonce

/-- A message of a chain is held under the owner of the chain. -/
theorem held_of_mem (hq : AllHeld acc mp ts pending)
    (hg : GroupFrom acc baseFee ts pending g) {c : MsgChain} (hc : c ∈ g.chains)
    (hm : m ∈ c.msgs) : Held acc mp ts g.owner m.message.nonce m := by
  rcases group_spec hq hg with hnil | ⟨act, mset, -, hget, hspec⟩
  · rw [hnil] at hc
    cases hc
  · obtain ⟨n, hn⟩ := Table.mem_values.mp (hspec.mem m (mem_flatMap.mpr ⟨c, hc, hm⟩))
    have hheld := hq g.owner n m (by rw [MsgMap.at, hget]; exact hn)
    rw [hheld.nonce]
    exact hheld

theorem groupsOk (hq : AllHeld acc mp ts pending)
    (hnodup : (gs.map ChainGroup.owner).Nodup)
    (hgs : ∀ g ∈ gs, GroupFrom acc baseFee ts pending g) :
    GroupsOk gs fun o => acc.sigType (acc.account o) where
  nodup := hnodup
  spec g hg := by
    rcases group_spec hq (hgs g hg) with hnil | ⟨act, mset, -, -, hspec⟩
    · rw [hnil]
      exact ⟨∅, 0, by simp, .nil, by simp, by simp, rfl, by simp⟩
    · exact ⟨mset, act.nonce, hspec⟩
  typed g hg _ hc _ hm := (held_of_mem hq (hgs g hg) hc hm).sigType
  known g _ := acc.sigType_known _

/-- The chains of the priority senders, and what is left for the others. -/
structure Split (acc : Accounts env) (baseFee : Int) (ts : TipSet) (pending pending' : MsgMap)
    (gs : List ChainGroup) : Prop where
  nodup : (gs.map ChainGroup.owner).Nodup
  source : ∀ g ∈ gs, GroupFrom acc baseFee ts pending g
  gone : ∀ g ∈ gs, pending'.get? g.owner = none
  rest : ∀ o s, pending'.get? o = some s → pending.get? o = some s

theorem Split.add {actor : Address} {pk : KeyAddress}
    {mset : Table Nat SignedMessage} (hs : Split acc baseFee ts pending pending' gs)
    (hactor : acc.account actor = .key pk) (hget : pending'.get? (.key pk) = some mset) :
    Split acc baseFee ts pending (pending'.erase (.key pk))
      (gs ++ [⟨.key pk, createMessageChains env (.key pk) actor mset baseFee ts⟩]) where
  nodup := by
    rw [map_append, map_singleton, nodup_append]
    refine ⟨hs.nodup, nodup_singleton _, fun a ha b hb heq => ?_⟩
    obtain ⟨g, hg, rfl⟩ := mem_map.mp ha
    have hgone := hs.gone g hg
    rw [heq, mem_singleton.mp hb, hget] at hgone
    cases hgone
  source := forall_mem_snoc hs.source
    ⟨actor, mset, hactor.trans (acc.account_key pk).symm, hs.rest _ _ hget, rfl⟩
  gone g hg := by
    rw [Table.get?_erase]
    split
    · rfl
    · next hne =>
      rcases mem_append.mp hg with hg | hg
      · exact hs.gone g hg
      · obtain rfl := mem_singleton.mp hg
        exact absurd rfl hne
  rest o s ho := hs.rest o s (Table.get?_erase_eq_some.mp ho).2

theorem priorityGroups_split (mp : Pool) (addrs : List Address)
    (hs : Split acc baseFee ts pending pending' gs) :
    ∃ gs', Split acc baseFee ts pending (priorityGroups env mp baseFee ts addrs pending' gs).1 gs' ∧
      ∀ out, (priorityGroups env mp baseFee ts addrs pending' gs).2 = some out → out = gs' := by
  induction addrs generalizing pending' gs with
  | nil => exact ⟨gs, hs, fun out hout => (Option.some.inj hout).symm⟩
  | cons actor addrs ih =>
    unfold priorityGroups
    cases hres : resolveToKey env mp.curTs actor with
    | none => exact ⟨gs, hs, fun out hout => nomatch hout⟩
    | some pk =>
      dsimp only
      cases hget : pending'.get? (.key pk) with
      | none => exact ih hs
      | some mset => exact ih (hs.add (acc.account_resolve _ _ _ hres) hget)

theorem pendingGroups_source (acc : Accounts env)
    (hrest : ∀ o s, pending'.get? o = some s → pending.get? o = some s)
    (hg : g ∈ pendingGroups env pending' baseFee ts) :
    GroupFrom acc baseFee ts pending g ∧ pending'.get? g.owner ≠ none := by
  obtain ⟨e, he, rfl⟩ := mem_map.mp hg
  obtain ⟨x, hx, rfl⟩ := mem_map.mp ((env.order.perm _).mem_iff.mp he)
  have hget : pending'.get? x.1 = some x.2 := AList.mem_lookup_iff.mpr hx
  refine ⟨⟨x.1, x.2, rfl, hrest _ _ hget, rfl⟩, ?_⟩
  rw [hget]
  exact Option.some_ne_none _

theorem pendingGroups_nodup (pending' : MsgMap) :
    ((pendingGroups env pending' baseFee ts).map ChainGroup.owner).Nodup := by
  have hkeys : (pending'.entries.map fun e => (e.1, e.2)).map Prod.fst = pending'.keys := by
    rw [map_map]
    rfl
  have hnodup := AList.keys_nodup pending'
  rw [← hkeys] at hnodup
  unfold pendingGroups
  rw [map_map]
  exact ((env.order.perm _).map _).nodup_iff.mpr hnodup

/-! ## Putting the two selections together -/

theorem groupOf_append_left {o : Address} (h : groupOf gs o ≠ []) :
    groupOf (gs ++ gs') o = groupOf gs o := by
  unfold groupOf at h ⊢
  rw [find?_append]
  cases hf : gs.find? fun g => g.owner = o with
  | none => rw [hf] at h; exact absurd rfl h
  | some g => rfl

theorem groupOf_append_right {o : Address} (h : ∀ g ∈ gs, g.owner ≠ o) :
    groupOf (gs ++ gs') o = groupOf gs' o := by
  have hnone : (gs.find? fun g => g.owner = o) = none :=
    find?_eq_none.mpr fun g hg => by simpa using h g hg
  unfold groupOf
  rw [find?_append, hnone, Option.none_or]

theorem owner_of_taken (ht : Taken (chainMsgs gs) T) (hp : p ∈ T) :
    groupOf gs p.owner ≠ [] ∧ ∃ g ∈ gs, g.owner = p.owner ∧ groupOf gs p.owner = g.chains := by
  obtain ⟨full, hchain, -⟩ := ht.chain_of_mem hp
  have hne : groupOf gs p.owner ≠ [] := by
    intro hnil
    rw [chainMsgs, hnil] at hchain
    cases hchain
  exact ⟨hne, (groupOf_cases gs p.owner).resolve_left hne⟩

/-! ## The messages of an account -/

section Assemble

variable (hq : AllHeld acc mp ts pending) (hgs : ∀ g ∈ gs, GroupFrom acc baseFee ts pending g)
  (ht : Taken (chainMsgs gs) T)
include hq hgs ht

/-- The messages of a piece are sent by the account of its owner. -/
theorem account_of_piece (hp : p ∈ T)
    (hm : m ∈ p.items) : acc.account m.message.fromAddr = acc.account p.owner := by
  obtain ⟨full, hchain, hpart⟩ := ht.chain_of_mem hp
  obtain ⟨-, g, hg, howner, hgroup⟩ := owner_of_taken ht hp
  rw [chainMsgs, hgroup, getElem?_map] at hchain
  obtain ⟨c, hc, rfl⟩ := Option.map_eq_some_iff.mp hchain
  rw [← howner]
  exact (held_of_mem hq (hgs g hg) (mem_of_getElem? hc) (hpart.subset hm)).account

/-- The account of a piece's owner has its next message waiting under the owner. -/
theorem waiting_of_piece (hp : p ∈ T) :
    ∃ act m, env.getActorAfter p.owner ts = some act ∧ Waiting env mp ts p.owner m ∧
      m.message.nonce = act.nonce ∧ (chainMsgs gs p.owner).flatten.map (·.message.nonce) =
        List.range' act.nonce (chainMsgs gs p.owner).flatten.length := by
  obtain ⟨hne, g, hg, howner, hgroup⟩ := owner_of_taken ht hp
  rw [← howner] at hgroup hne ⊢
  rcases group_spec hq (hgs g hg) with hnil | ⟨act, mset, hact, -, hspec⟩
  · exact absurd (hgroup.trans hnil) hne
  have hflat : (chainMsgs gs g.owner).flatten = g.chains.flatMap MsgChain.msgs := by
    rw [chainMsgs, hgroup, flatMap_def]
  rw [hflat]
  cases hchains : g.chains with
  | nil => exact absurd (hgroup.trans hchains) hne
  | cons c cs =>
    have hc : c ∈ g.chains := by simp [hchains]
    obtain ⟨m, l, hml⟩ := exists_cons_of_ne_nil (hspec.fresh c hc).nonempty
    have hnonces := hspec.nonces
    refine ⟨act, m, hact, (held_of_mem hq (hgs g hg) hc (by simp [hml])).waiting, ?_,
      hchains ▸ hnonces⟩
    rw [hchains, flatMap_cons, hml, cons_append, map_cons, length_cons,
      range'_succ] at hnonces
    exact (List.cons.inj hnonces).1

/-- The messages that an account sends are those of the pieces of its addresses. -/
theorem sentBy_itemsOf (a : Address) :
    sentBy acc a (itemsOf T) = itemsOf (T.filter fun p => acc.account p.owner = a) := by
  have hacc : ∀ p ∈ T, ∀ m ∈ p.items, acc.account m.message.fromAddr = acc.account p.owner :=
    fun p hp m hm => account_of_piece hq hgs ht hp hm
  clear hq hgs ht
  induction T with
  | nil => rfl
  | cons p T ih =>
    obtain ⟨hp, hT⟩ := forall_mem_cons.mp hacc
    have hitems : p.items.filter (fun m => acc.account m.message.fromAddr = a) =
        p.items.filter fun _ => acc.account p.owner = a :=
      filter_congr fun m hm => by rw [hp m hm]
    have hcons : itemsOf (p :: T) = p.items ++ itemsOf T := rfl
    have ih' := ih hT
    unfold sentBy at ih' ⊢
    rw [hcons, filter_append, hitems, ih', filter_cons]
    split
    · next howner => simp [howner, itemsOf]
    · next howner => simp [howner]

theorem sentBy_nonces (hone : OneAddress acc mp ts) {a : Address}
    (hne : sentBy acc a (itemsOf T) ≠ []) :
    ∃ act, env.getActorAfter a ts = some act ∧
      (sentBy acc a (itemsOf T)).map (·.message.nonce) =
        List.range' act.nonce (sentBy acc a (itemsOf T)).length := by
  rw [sentBy_itemsOf hq hgs ht] at hne ⊢
  -- the account has a piece, and all its pieces have the same owner
  obtain ⟨p, hp⟩ : ∃ p, p ∈ T.filter fun p => acc.account p.owner = a := by
    refine exists_mem_of_ne_nil _ fun hnil => hne ?_
    rw [hnil]
    rfl
  obtain ⟨hpT, hpa⟩ := mem_filter.mp hp
  have hpa : acc.account p.owner = a := by simpa using hpa
  obtain ⟨act, m, hact, hwait, hnonce, hrange⟩ := waiting_of_piece hq hgs ht hpT
  have howned : (T.filter fun q => acc.account q.owner = a) = ownedBy p.owner T := by
    refine filter_congr fun q hqT => ?_
    obtain ⟨act', m', hact', hwait', hnonce', -⟩ := waiting_of_piece hq hgs ht hqT
    rw [decide_eq_decide]
    constructor
    · intro hqa
      have haccount : acc.account q.owner = acc.account p.owner := hqa.trans hpa.symm
      have hsame : act' = act := by
        rw [acc.actor_eq q.owner p.owner ts haccount, hact] at hact'
        exact (Option.some.inj hact').symm
      subst hsame
      exact hone q.owner p.owner m' m act' hwait' hwait haccount hact' hnonce' hnonce
    · intro howner
      rw [howner]
      exact hpa
  rw [howned]
  obtain ⟨rest, hrest⟩ := ht.owned p.owner
  refine ⟨act, ?_, ?_⟩
  · rw [← hact]
    refine acc.actor_eq a p.owner ts ?_
    rw [← hpa, acc.account_self]
  · rw [← hrest, map_append, length_append, ← range'_append_1] at hrange
    exact (append_inj hrange (by simp)).1

/-- Pieces within the limits of a block are a correct selection. -/
theorem selected_of_taken (hone : OneAddress acc mp ts) {sm : SelectedMessages} (hl : Limits sm)
    (hmsgs : sm.msgs = itemsOf T) : Selected acc ts (sm.msgs.take blockMessageLimit) := by
  obtain ⟨hgasSum, hgasPos, hroom, hbls, hblsPos, hsecp, hsecpPos⟩ := hl
  unfold SelectedMessages.room at hroom
  have hlen : sm.msgs.length ≤ blockMessageLimit := by omega
  rw [take_of_length_le hlen]
  have hnonces : ∀ a, sentBy acc a sm.msgs ≠ [] → ∃ act, env.getActorAfter a ts = some act ∧
      (sentBy acc a sm.msgs).map (·.message.nonce) =
        List.range' act.nonce (sentBy acc a sm.msgs).length := by
    rw [hmsgs]
    exact fun a hne => sentBy_nonces hq hgs ht hone hne
  refine ⟨?_, hnonces, by omega, hlen, by omega, by omega⟩
  -- a message that occurs twice would give its account a nonce twice
  rw [nodup_iff_count_le_one]
  intro m
  by_cases hm : m ∈ sm.msgs
  · have hsent : m ∈ sentBy acc (acc.account m.message.fromAddr) sm.msgs :=
      mem_filter.mpr ⟨hm, decide_eq_true rfl⟩
    obtain ⟨act, -, hrange⟩ := hnonces _ (ne_nil_of_mem hsent)
    have hnodup : (sentBy acc (acc.account m.message.fromAddr) sm.msgs).Nodup := by
      refine Nodup.of_map (·.message.nonce) ?_
      rw [hrange]
      exact nodup_range'
    have heq : (sentBy acc (acc.account m.message.fromAddr) sm.msgs).count m = sm.msgs.count m :=
      count_filter (by simp)
    rw [← heq]
    exact nodup_iff_count_le_one.mp hnodup m
  · rw [count_eq_zero_of_not_mem hm]
    exact Nat.zero_le 1

end Assemble

/-! ## The whole selection -/

theorem limits_noneSelected : Limits noneSelected where
  gas := rfl
  gas_nonneg := by decide
  count := by decide
  bls := rfl
  bls_nonneg := by decide
  secp := rfl
  secp_nonneg := by decide

/-- The selection of the priority messages ends, and leaves the others. -/
theorem selectPriorityMessages_spec (baseFee : Int) (acc : Accounts env)
    (hq : AllHeld acc mp ts pending) :
    ∃ pending' sm gs T, selectPriorityMessages env mp pending baseFee ts = (pending', some sm) ∧
      Split acc baseFee ts pending pending' gs ∧ Limits sm ∧ sm.msgs = itemsOf T ∧
      Taken (chainMsgs gs) T := by
  have hstart : Split acc baseFee ts pending pending [] :=
    ⟨.nil, forall_mem_nil _, forall_mem_nil _, fun _ _ h => h⟩
  obtain ⟨gs, hsplit, hout⟩ := priorityGroups_split mp env.cfg.priorityAddrs hstart
  unfold selectPriorityMessages
  cases hp : priorityGroups env mp baseFee ts env.cfg.priorityAddrs pending [] with
  | mk pending' out =>
    rw [hp] at hsplit hout
    cases out with
    | none => exact ⟨pending', noneSelected, gs, [], rfl, hsplit, limits_noneSelected, rfl, .nil⟩
    | some out =>
      obtain rfl := hout out rfl
      have hok := groupsOk hq hsplit.nodup hsplit.source
      obtain ⟨sm, T, hrun, hl, hmsgs, ht⟩ := selectGreedy_spec hok env limits_noneSelected baseFee
      exact ⟨pending', sm, out, T, by rw [← hrun], hsplit, hl, hmsgs, ht⟩

/-- A way to pick from chains that ends, keeps the limits and takes pieces in
order. -/
def PicksPieces (pick : Heap → List ChainId → SelectedMessages → Int → Option SelectedMessages) :
    Prop :=
  ∀ (gs : List ChainGroup) (sig : Address → SigType) (sm : SelectedMessages) (baseFee : Int),
    GroupsOk gs sig → Limits sm →
    ∃ sm' T, pick (Heap.ofGroups gs) (chainIds gs) sm baseFee = some sm' ∧ Limits sm' ∧
      sm'.msgs = sm.msgs ++ itemsOf T ∧ Taken (chainMsgs gs) T

theorem selectWith_selected (hpool : WellKeyed acc.account mp) (hone : OneAddress acc mp ts)
    (full : SelectedMessages → Bool)
    {pick : Heap → List ChainId → SelectedMessages → Int → Option SelectedMessages}
    (hpick : PicksPieces pick) :
    ∃ r, selectWith env mp ts full pick = some r ∧
      ∀ sm, r = .ok (some sm) → Selected acc ts (sm.msgs.take blockMessageLimit) := by
  unfold selectWith
  cases env.chainComputeBaseFee ts with
  | none => exact ⟨_, rfl, fun sm h => nomatch h⟩
  | some baseFee =>
    cases hpending : getPendingMessages env mp mp.curTs ts with
    | error e => exact ⟨_, rfl, fun sm h => nomatch h⟩
    | ok pending =>
      have hq := getPendingMessages_held hpool hpending
      dsimp only
      split
      · exact ⟨_, rfl, fun sm h => nomatch h⟩
      obtain ⟨pending', sm, gs, T, hprio, hsplit, hl, hmsgs, ht⟩ :=
        selectPriorityMessages_spec baseFee acc hq
      rw [hprio]
      dsimp only
      split
      · refine ⟨_, rfl, fun sm' h => ?_⟩
        cases h
        exact selected_of_taken hq hsplit.source ht hone hl hmsgs
      have hsource : ∀ g ∈ pendingGroups env pending' baseFee ts,
          GroupFrom acc baseFee ts pending g :=
        fun g hg => (pendingGroups_source acc hsplit.rest hg).1
      have hok := groupsOk hq (pendingGroups_nodup pending') hsource
      obtain ⟨sm', U, hrun, hl', hmsgs', hu⟩ := hpick _ _ sm baseFee hok hl
      rw [hrun]
      refine ⟨_, rfl, fun sm'' h => ?_⟩
      cases h
      have hdisj : ∀ g ∈ gs, ∀ g' ∈ pendingGroups env pending' baseFee ts, g.owner ≠ g'.owner := by
        intro g hg g' hg' howner
        have hleft := (pendingGroups_source acc hsplit.rest hg').2
        rw [← howner] at hleft
        exact hleft (hsplit.gone g hg)
      have hall : ∀ g ∈ gs ++ pendingGroups env pending' baseFee ts,
          GroupFrom acc baseFee ts pending g :=
        forall_mem_append.mpr ⟨hsplit.source, hsource⟩
      refine selected_of_taken hq hall (.append (ht.congr fun p hp => ?_)
        (hu.congr fun p hp => ?_) fun p hp q hq => ?_) hone hl'
        (by rw [hmsgs', hmsgs, itemsOf_append])
      · rw [chainMsgs, groupOf_append_left (owner_of_taken ht hp).1, chainMsgs]
      · obtain ⟨-, g', hg', howner, -⟩ := owner_of_taken hu hp
        rw [chainMsgs, groupOf_append_right fun g hg => howner ▸ hdisj g hg g' hg', chainMsgs]
      · obtain ⟨-, g, hg, howner, -⟩ := owner_of_taken ht hp
        obtain ⟨-, g', hg', howner', -⟩ := owner_of_taken hu hq
        rw [← howner, ← howner']
        exact hdisj g hg g' hg'

theorem selected_nil : Selected acc ts [] where
  nodup := .nil
  nonces _ h := absurd rfl h
  gas := by decide
  count := Nat.zero_le _
  bls := by decide
  secp := by decide

end SelectionLemmas

open SelectionLemmas in
/-- Where no account has its next message under two addresses, `SelectMessages`
ends, and what it selects is a correct block: no message twice, the next nonces of
every sender in their order, and within all limits. -/
theorem selectMessages_selected (acc : Accounts env) {mp : Pool} (hpool : WellKeyed acc.account mp)
    {ts : TipSet} (hone : OneAddress acc mp ts) (choices : Choices) (tq : ℚ) :
    ∃ r, selectMessages env choices mp ts tq = some r ∧
      ∀ msgs, r = .ok msgs → Selected acc ts msgs := by
  obtain ⟨r, hr, hsel⟩ : ∃ r,
      (if tq > 84 / 100 then selectMessagesGreedy env mp ts
        else selectMessagesOptimal env choices mp ts tq) = some r ∧
      ∀ sm, r = .ok (some sm) → Selected acc ts (sm.msgs.take blockMessageLimit) := by
    split
    · exact selectWith_selected hpool hone _ fun gs sig sm baseFee hok hl =>
        selectGreedy_spec hok env hl baseFee
    · exact selectWith_selected hpool hone _ fun gs sig sm baseFee hok hl =>
        selectOptimal_spec hok env choices hl baseFee tq
  unfold selectMessages
  rw [hr]
  refine ⟨_, rfl, fun msgs hmsgs => ?_⟩
  cases r with
  | error e => cases hmsgs
  | ok result =>
    cases result with
    | none => cases hmsgs; exact selected_nil
    | some sm => cases hmsgs; exact hsel sm rfl

/-! ## When the condition holds -/

open HeadChangeLemmas in
/-- It holds when the blocks name their senders by key addresses. -/
theorem oneAddress_of_keySenders (hsenders : KeySenders env)
    {ts : TipSet} : OneAddress acc mp ts := by
  have hkey : ∀ a m, Waiting env mp ts a m → ∃ k, a = .key k := by
    rintro a m (⟨k, rfl, -⟩ | ⟨rfl, revert, apply, -, r, -, msgs, hmsgs, hm⟩)
    · exact ⟨k, rfl⟩
    · obtain ⟨b, -, bmsgs, hb, hmem⟩ := mem_messagesForBlocks hmsgs hm
      exact hsenders b bmsgs hb _ hmem
  -- Key addresses name different accounts.
  intro a b m m' act ha hb haccount _ _ _
  obtain ⟨k, rfl⟩ := hkey a m ha
  obtain ⟨k', rfl⟩ := hkey b m' hb
  rwa [acc.account_key, acc.account_key] at haccount

/-! ## One account, two addresses -/

/-- The same order everywhere. -/
def plainChoices : Choices where
  resort _ _ rest := rest
  resort_perm _ _ _ := .refl _
  shuffle l := l
  shuffle_perm _ := .refl _
  blockProbabilities _ _ := 1

/-- The account of `payer` is the one that ID address 0 names. -/
def accountOf (a : Address) : Address := if a = .id 0 then .key payer else a

def sigTypeOf : Address → SigType
  | .key k => k.sigType
  | _ => .bls

/-- The accounts of surroundings in which every message of a block is sent by `payer`. -/
def calmAccounts (actors : TipSet → Option Actor) (blocks : BlockHeader → List SignedMessage)
    (load : TipSetKey → Option TipSet) (hblocks : ∀ b, ∀ m ∈ blocks b,
      accountOf m.message.fromAddr = .key payer ∧ m.signature.type = .secp256k1) :
    Accounts (calmEnv (fun _ ts => actors ts) blocks load) where
  account := accountOf
  sigType := sigTypeOf
  account_self a := by
    by_cases h : a = .id 0
    · rw [h]
      rfl
    · simp [accountOf, h]
  account_key _ := rfl
  account_resolve ts a k h := by
    cases a with
    | key k' => cases h; rfl
    | actor i => cases h
    | undef => cases h
    | id i =>
      simp only [resolveToKey, calmEnv, Option.ite_none_right_eq_some, Option.some.injEq] at h
      obtain ⟨hid, rfl⟩ := h
      exact if_pos hid
  actor_eq _ _ _ _ := rfl
  sigType_key _ := rfl
  sigType_known a := by
    cases a with
    | key k => cases k <;> simp [sigTypeOf, KeyAddress.sigType]
    | undef => exact .inl rfl
    | id i => exact .inl rfl
    | actor i => exact .inl rfl
  signed b msgs h m hm := by
    cases h
    rw [filterMap_nil, append_nil] at hm
    rw [(hblocks b m hm).1, (hblocks b m hm).2]
    rfl

theorem wellKeyed_run_clearThenAdd : ∃ states,
    trace poolStep (emptyPool rootTs) clearThenAdd = some states ∧
      ∀ mp ∈ states, WellKeyed accountOf mp := by
  let acc : Accounts fundedEnv := calmAccounts _ _ _ fun _ _ => nofun
  refine exists_trace_of rfl fun _ h => wellKeyed_run (wellKeyed_emptyPool _ _) h ?_
  exact ⟨⟨acc, rfl, by simp⟩, fun _ _ => ⟨⟨acc, rfl, by simp⟩, fun _ _ => trivial⟩⟩

/-- Two blocks of one height. -/
def twinTs : TipSet where
  blks := [⟨1, [0], 1, 100⟩, ⟨2, [0], 1, 100⟩]
  blks_ne := by simp
  same_height := by decide
  same_parents := by decide

def twinLoad (k : TipSetKey) : Option TipSet :=
  if k = [0] then some rootTs else if k = [1, 2] then some twinTs else none

/-- The first block of `twinTs` has one message, the second one another. -/
def twinBlocks (m m' : SignedMessage) (b : BlockHeader) : List SignedMessage :=
  if b.cid = 1 then [m] else if b.cid = 2 then [m'] else []

/-- A rich account that has sent one message in `twinTs`. -/
def twinActor (ts : TipSet) : Option Actor :=
  some ⟨if ts = twinTs then 1 else 0, 1000000000000000⟩

def twinEnv (m m' : SignedMessage) : Env :=
  calmEnv (fun _ ts => twinActor ts) (twinBlocks m m') twinLoad

theorem forall_twinBlocks {m m' : SignedMessage} {P : SignedMessage → Prop} (hm : P m) (hm' : P m')
    (b : BlockHeader) : ∀ x ∈ twinBlocks m m' b, P x := by
  intro x hx
  unfold twinBlocks at hx
  split at hx
  · rwa [mem_singleton.mp hx]
  · split at hx
    · rwa [mem_singleton.mp hx]
    · cases hx

/-- The blocks name the account in two ways. -/
def twinAccounts : Accounts (twinEnv (transfer (.key payer) 0) (transfer (.id 0) 0)) :=
  calmAccounts twinActor _ twinLoad (forall_twinBlocks ⟨rfl, rfl⟩ ⟨rfl, rfl⟩)

/-- Seen from the parent of `twinTs`, the account has two messages with nonce 0,
and both are selected. -/
theorem selectMessages_repeats_nonce :
    WellKeyed twinAccounts.account (emptyPool twinTs) ∧
      ∃ msgs, selectMessages (twinEnv (transfer (.key payer) 0) (transfer (.id 0) 0))
          plainChoices (emptyPool twinTs) rootTs 1 = some (.ok msgs) ∧
        ¬ Selected twinAccounts rootTs msgs := by
  refine ⟨wellKeyed_emptyPool _ _, [transfer (.id 0) 0, transfer (.key payer) 0], ?_, ?_⟩
  · decide +kernel
  · intro h
    obtain ⟨act, hact, hnonces⟩ := h.nonces (.key payer) (by decide)
    cases hact
    revert hnonces
    decide

/-- The blocks name the account by its key address. -/
def keyAccounts : Accounts (twinEnv (transfer (.key payer) 0) (transfer (.key payer) 1)) :=
  calmAccounts twinActor _ twinLoad (forall_twinBlocks ⟨rfl, rfl⟩ ⟨rfl, rfl⟩)

theorem keySenders_keyAccounts :
    KeySenders (twinEnv (transfer (.key payer) 0) (transfer (.key payer) 1)) := by
  intro b msgs hb key hkey
  cases hb
  simp only [appliedNonces, map_nil, append_nil, mem_map] at hkey
  obtain ⟨x, hx, rfl⟩ := hkey
  exact forall_twinBlocks (P := fun m => ∃ k, m.message.fromAddr = .key k) ⟨_, rfl⟩ ⟨_, rfl⟩ b x hx

/-- The two messages of the reverted blocks go into the next block in their order. -/
theorem selectMessages_selected_reverted : Selected keyAccounts rootTs
    [transfer (.key payer) 0, transfer (.key payer) 1] := by
  have hrun : selectMessages (twinEnv (transfer (.key payer) 0) (transfer (.key payer) 1))
      plainChoices (emptyPool twinTs) rootTs 0 =
        some (.ok [transfer (.key payer) 0, transfer (.key payer) 1]) := by
    decide +kernel
  obtain ⟨r, hr, hsel⟩ := selectMessages_selected keyAccounts (wellKeyed_emptyPool _ _)
    (oneAddress_of_keySenders keySenders_keyAccounts) plainChoices 0
  rw [hrun] at hr
  cases hr
  exact hsel _ rfl

end OpenDsn.Mpool
