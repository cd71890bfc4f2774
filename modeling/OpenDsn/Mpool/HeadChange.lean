import OpenDsn.Mpool.Pool

/-!
# Head changes

The two replays of a reorganisation in `chain/messagepool`. `headChange`
(`HeadChange`) follows the chain: the messages of reverted blocks are collected,
those of applied blocks are removed from the collection or from the pool, and
what is left of the collection is added to the pool. `runHeadChange` works on a
copy of the pending messages: it puts in the messages of reverted blocks and
takes out those of applied blocks. `getPendingMessages` uses it to look at the
pool from another tipset.

* `headChange_eq_getPendingMessages`: on messages with key-address senders both
  end with the same messages.
-/

namespace OpenDsn.Mpool

open Lib Chain List Option

/-- Messages by sender address, as written in the message, and nonce. -/
abbrev MsgMap := Table Address (Table Nat SignedMessage)

/-- The message of a sender address with a nonce. -/
def MsgMap.at (rmsgs : MsgMap) (addr : Address) (nonce : Nat) : Option SignedMessage :=
  (rmsgs.get? addr).bind fun s => s.get? nonce

/-- The function `add` of both replays. -/
def MsgMap.put (rmsgs : MsgMap) (m : SignedMessage) : MsgMap :=
  let s := (rmsgs.get? m.message.fromAddr).getD ∅
  rmsgs.insert m.message.fromAddr (s.insert m.message.nonce m)

/-- The function `rm` of `runHeadChange`. -/
def MsgMap.del (rmsgs : MsgMap) (addr : Address) (nonce : Nat) : MsgMap :=
  match rmsgs.get? addr with
  | none => rmsgs
  | some s => if (s.get? nonce).isSome then rmsgs.insert addr (s.erase nonce) else rmsgs

section

variable (env : Env)

def recoverSig (msg : Message) : Option SignedMessage :=
  (env.blsSigCache msg).map fun sig => ⟨msg, sig⟩

/-- `MessagesForBlocks`: the messages that can be added again. A BLS message
whose signature is no longer cached is left out. -/
def messagesForBlocks (env : Env) : List BlockHeader → Option (List SignedMessage)
  | [] => some []
  | b :: rest => do
      let (bmsgs, smsgs) ← env.messagesForBlock b
      let out ← messagesForBlocks env rest
      return smsgs ++ bmsgs.filterMap (recoverSig env) ++ out

/-- The senders and nonces of a block's messages, in the order in which they
are removed. -/
def appliedNonces (msgs : List Message × List SignedMessage) : List (Address × Nat) :=
  msgs.2.map (fun m => (m.message.fromAddr, m.message.nonce)) ++
    msgs.1.map fun m => (m.fromAddr, m.nonce)

/-! ## `HeadChange` -/

/-- The state of `HeadChange`: the pool, the collected messages and whether a
load failed. -/
structure Replay where
  mp : Pool
  rmsgs : MsgMap
  failed : Bool

def revertTipSet (st : Replay) (ts : TipSet) : Replay :=
  match env.loadTipSet ts.parents with
  | none => { st with failed := true }
  | some pts =>
      let mp := { st.mp with curTs := pts }
      match messagesForBlocks env ts.blks with
      | none => { st with mp := mp, failed := true }
      | some msgs => { st with mp := mp, rmsgs := msgs.foldl MsgMap.put st.rmsgs }

/-- The function `rm` of `HeadChange`. -/
def rmApplied (st : Replay) (key : Address × Nat) : Replay :=
  if (st.rmsgs.at key.1 key.2).isSome then { st with rmsgs := st.rmsgs.del key.1 key.2 }
  else { st with mp := remove env st.mp key.1 key.2 true }

def applyBlock (st : Replay) (b : BlockHeader) : Replay :=
  match env.messagesForBlock b with
  | none => { st with failed := true }
  | some msgs => (appliedNonces msgs).foldl (rmApplied env) st

def applyTipSet (st : Replay) (ts : TipSet) : Replay :=
  ts.blks.foldl (applyBlock env) { st with mp := { st.mp with curTs := ts } }

/-- The collected messages in the order in which they are added again. -/
def readdOrder (rmsgs : MsgMap) : List SignedMessage :=
  (env.order.arrange rmsgs.values).flatMap fun s => env.order.arrange s.values

def readd (mp : Pool) (m : SignedMessage) : Pool := (addSkipChecks env mp m).1

/-- `HeadChange` up to the messages that are added again. -/
def replayChange (mp : Pool) (revert apply : List TipSet) : Replay :=
  apply.foldl (applyTipSet env) (revert.foldl (revertTipSet env) ⟨mp, ∅, false⟩)

def headChange (mp : Pool) (revert apply : List TipSet) : Pool × Except MpoolError Unit :=
  let st := replayChange env mp revert apply
  ((readdOrder env st.rmsgs).foldl (readd env) st.mp, if st.failed then .error .replay else .ok ())

/-! ## `getPendingMessages` -/

/-- The state of `runHeadChange`: the messages and whether a load failed. -/
structure CopyReplay where
  rmsgs : MsgMap
  failed : Bool

def revertOnCopy (st : CopyReplay) (ts : TipSet) : CopyReplay :=
  match messagesForBlocks env ts.blks with
  | none => { st with failed := true }
  | some msgs => { st with rmsgs := msgs.foldl MsgMap.put st.rmsgs }

def applyBlockOnCopy (st : CopyReplay) (b : BlockHeader) : CopyReplay :=
  match env.messagesForBlock b with
  | none => { st with failed := true }
  | some msgs =>
      { st with rmsgs := (appliedNonces msgs).foldl (fun r key => r.del key.1 key.2) st.rmsgs }

def applyOnCopy (st : CopyReplay) (ts : TipSet) : CopyReplay :=
  ts.blks.foldl (applyBlockOnCopy env) st

def runHeadChange (fromTs toTs : TipSet) (rmsgs : MsgMap) : Except MpoolError MsgMap :=
  match reorgOps env.loadTipSet fromTs toTs with
  | none => .error .reorgOps
  | some (revert, apply) =>
      let st := apply.foldl (applyOnCopy env) (revert.foldl (revertOnCopy env) ⟨rmsgs, false⟩)
      if st.failed then .error .replay else .ok st.rmsgs

/-- The pending messages by the address of their sender. -/
def Pool.pendingMap (mp : Pool) : MsgMap := mp.pending.translate Address.key MsgSet.msgs

def getPendingMessages (mp : Pool) (curTs ts : TipSet) : Except MpoolError MsgMap :=
  if curTs.height = ts.height ∧ curTs.equals ts then .ok mp.pendingMap
  else runHeadChange env curTs ts mp.pendingMap

/-! ## The two replays side by side -/

/-- The loads and stores of a head change succeed. -/
structure LoadsSucceed : Prop where
  actor : ∀ k ts, (env.getActorAfter (.key k) ts).isSome
  block : ∀ b, (env.messagesForBlock b).isSome
  signed : ∀ m, env.putSigned m = true
  message : ∀ m, env.putMessage m = true

/-- The messages of blocks are sent from key addresses. -/
def KeySenders : Prop :=
  ∀ b msgs, env.messagesForBlock b = some msgs → ∀ key ∈ appliedNonces msgs, ∃ k, key.1 = .key k

/-- The nonces of a tipset's messages have a property. -/
def NoncesIn (ts : TipSet) (P : Address → Nat → Prop) : Prop :=
  ∀ b ∈ ts.blks, ∀ msgs, env.messagesForBlock b = some msgs →
    ∀ key ∈ appliedNonces msgs, P key.1 key.2

/-- `n` is below the nonce of the account in the state after the pool's tipset. -/
def BelowAccount (mp : Pool) (addr : Address) (n : Nat) : Prop :=
  ∀ act, env.getActorAfter addr mp.curTs = some act → n < act.nonce

/-- No pending nonce is below the nonce of the account. -/
def NoneBelow (mp : Pool) : Prop :=
  ∀ k n, BelowAccount env mp (.key k) n → mp.pendingAt k n = none

/-- One message per sender and nonce over the pool and the blocks that a head
change to `b` reverts: the message of such a block has used its nonce, or at
least is not pending as well. -/
def OncePerNonce (t : BlockTree) (mp : Pool) (b : TipSet) : Prop :=
  ∀ A B, t.Walk mp.curTs A → t.Walk b B → ∀ ts ∈ A, ts ∉ B →
    NoncesIn env ts fun addr n => BelowAccount env mp addr n ∨ mp.pendingMap.at addr n = none

end

namespace HeadChangeLemmas

open PoolLemmas MsgMap Table

variable {env : Env} {mp : Pool} {rmsgs : MsgMap} {m : SignedMessage}

section

variable (mp rmsgs m)

theorem at_put (a : Address) (n : Nat) : (rmsgs.put m).at a n =
      if a = m.message.fromAddr ∧ n = m.message.nonce then some m else rmsgs.at a n := by
  unfold MsgMap.put MsgMap.at
  rw [get?_insert]
  by_cases ha : a = m.message.fromAddr
  · subst ha
    simp only [if_true, bind_some, get?_insert, true_and]
    split
    · rfl
    · cases rmsgs.get? m.message.fromAddr <;> rfl
  · rw [if_neg ha, if_neg fun h => ha h.1]

theorem at_del (x : Address) (i : Nat) (a : Address) (n : Nat) :
    (rmsgs.del x i).at a n = if a = x ∧ n = i then none else rmsgs.at a n := by
  unfold MsgMap.del
  cases hx : rmsgs.get? x with
  | none =>
    dsimp only
    split
    · next h => rw [h.1]; simp [MsgMap.at, hx]
    · rfl
  | some s =>
    dsimp only
    cases hs : s.get? i with
    | none =>
      simp only [isSome_none, Bool.false_eq_true, if_false]
      split
      · next h => rw [h.1, h.2]; simp [MsgMap.at, hx, hs]
      · rfl
    | some m =>
      simp only [isSome_some, if_true]
      unfold MsgMap.at
      rw [get?_insert]
      by_cases ha : a = x
      · subst ha
        simp only [if_true, bind_some, get?_erase, true_and, hx]
      · rw [if_neg ha, if_neg fun h => ha h.1]

theorem at_pendingMap (k : KeyAddress) (n : Nat) :
    mp.pendingMap.at (.key k) n = mp.pendingAt k n := by
  unfold MsgMap.at Pool.pendingMap Pool.pendingAt
  rw [get?_translate _ _ fun _ _ h => Address.key.inj h]
  cases mp.pending.get? k <;> rfl

/-- Only key addresses have pending messages. -/
theorem at_pendingMap_none {a : Address} (ha : ∀ k, Address.key k ≠ a) (n : Nat) :
    mp.pendingMap.at a n = none := by
  unfold MsgMap.at Pool.pendingMap
  rw [get?_translate_none _ _ ha]
  rfl

end

/-- The messages by address are known from the messages by key address. -/
theorem at_pendingMap_eq (f : Address → Nat → Option SignedMessage)
    (hkey : ∀ k n, mp.pendingAt k n = f (.key k) n)
    (hother : ∀ a n, (∀ k, Address.key k ≠ a) → f a n = none) (a : Address) (n : Nat) :
    mp.pendingMap.at a n = f a n := by
  cases a with
  | key k => rw [at_pendingMap, hkey]
  | undef | id i | actor i => rw [at_pendingMap_none _ (by simp), hother _ _ (by simp)]

/-- The copy `q` has the collected messages and those of the pool, which do not
overlap; what is collected is filed under its own sender, a key address, and
nonce. -/
structure Mirrors (st : Replay) (q : MsgMap) : Prop where
  merged : ∀ a n, q.at a n = (st.rmsgs.at a n).or (st.mp.pendingMap.at a n)
  disjoint : ∀ a n, st.rmsgs.at a n ≠ none → st.mp.pendingMap.at a n = none
  filed : ∀ a n m, st.rmsgs.at a n = some m → m.message.fromAddr = a ∧ m.message.nonce = n
  key : ∀ a n, st.rmsgs.at a n ≠ none → ∃ k, a = .key k

variable {st : Replay} {q : MsgMap} {k : KeyAddress} {out : List SignedMessage}

theorem Mirrors.put (h : Mirrors st q) (hk : m.message.fromAddr = .key k)
    (hfree : st.mp.pendingMap.at m.message.fromAddr m.message.nonce = none) :
    Mirrors { st with rmsgs := st.rmsgs.put m } (q.put m) where
  merged a n := by
    rw [at_put, at_put, h.merged]
    split <;> rfl
  disjoint a n ha := by
    rw [at_put] at ha
    split at ha
    · next heq => show st.mp.pendingMap.at a n = none; rw [heq.1, heq.2]; exact hfree
    · exact h.disjoint a n ha
  filed a n m' hm' := by
    rw [at_put] at hm'
    split at hm'
    · next heq => cases hm'; exact ⟨heq.1.symm, heq.2.symm⟩
    · exact h.filed a n m' hm'
  key a n ha := by
    rw [at_put] at ha
    split at ha
    · next heq => exact ⟨k, heq.1.trans hk⟩
    · exact h.key a n ha

theorem Mirrors.move (h : Mirrors st q) (ts : TipSet) (failed : Bool) :
    Mirrors ⟨{ st.mp with curTs := ts }, st.rmsgs, failed⟩ q :=
  { h with }

theorem at_pendingMap_remove (i : Nat) (a : Address) (n : Nat) :
    (remove env mp (.key k) i true).pendingMap.at a n =
      if a = .key k ∧ n = i then none else mp.pendingMap.at a n := by
  refine at_pendingMap_eq (fun a n => if a = .key k ∧ n = i then none else mp.pendingMap.at a n)
    (fun k' n => ?_) (fun a n ha => ?_) a n
  · rw [pendingAt_remove, at_pendingMap]
    simp [resolveToKey, eq_comm]
  · rw [at_pendingMap_none mp ha, ite_self]

theorem Mirrors.rmApplied (h : Mirrors st q) (i : Nat) :
    Mirrors (rmApplied env st (.key k, i)) (q.del (.key k) i) := by
  unfold Mpool.rmApplied
  cases hat : st.rmsgs.at (.key k) i with
  | some m =>
    simp only [isSome_some, if_true]
    have hnone := h.disjoint (.key k) i (by rw [hat]; simp)
    constructor
    · intro a n
      rw [at_del, at_del, h.merged]
      split
      · next heq => rw [heq.1, heq.2, hnone]; rfl
      · rfl
    · intro a n ha
      rw [at_del, ite_ne_left_iff] at ha
      exact h.disjoint a n ha.2.symm
    · intro a n m' hm'
      rw [at_del, ite_none_left_eq_some] at hm'
      exact h.filed a n m' hm'.2
    · intro a n ha
      rw [at_del, ite_ne_left_iff] at ha
      exact h.key a n ha.2.symm
  | none =>
    simp only [isSome_none, Bool.false_eq_true, if_false]
    constructor
    · intro a n
      rw [at_del, at_pendingMap_remove, h.merged]
      split
      · next heq => rw [heq.1, heq.2, hat]; rfl
      · rfl
    · intro a n ha
      rw [at_pendingMap_remove, h.disjoint a n ha, ite_self]
    · exact h.filed
    · exact h.key

theorem mem_messagesForBlocks {blks : List BlockHeader}
    (h : messagesForBlocks env blks = some out) (hm : m ∈ out) :
    ∃ b ∈ blks, ∃ msgs, env.messagesForBlock b = some msgs ∧
      (m.message.fromAddr, m.message.nonce) ∈ appliedNonces msgs := by
  induction blks generalizing out with
  | nil => cases h; cases hm
  | cons b rest ih =>
    obtain ⟨⟨bmsgs, smsgs⟩, hb, h⟩ := bind_eq_some_iff.mp h
    obtain ⟨out', hrest, h⟩ := bind_eq_some_iff.mp h
    cases h
    rcases mem_append.mp hm with hm | hm
    · refine ⟨b, mem_cons_self, (bmsgs, smsgs), hb, mem_append.mpr ?_⟩
      rcases mem_append.mp hm with hm | hm
      · exact .inl (mem_map.mpr ⟨m, hm, rfl⟩)
      · obtain ⟨msg, hmsg, hrec⟩ := mem_filterMap.mp hm
        obtain ⟨sig, _, rfl⟩ := map_eq_some_iff.mp hrec
        exact .inr (mem_map.mpr ⟨msg, hmsg, rfl⟩)
    · obtain ⟨b', hb', hmem⟩ := ih hrest hm
      exact ⟨b', mem_cons_of_mem _ hb', hmem⟩

theorem messagesForBlocks_isSome (hok : LoadsSucceed env) (blks : List BlockHeader) :
    ∃ out, messagesForBlocks env blks = some out := by
  induction blks with
  | nil => exact ⟨[], rfl⟩
  | cons b rest ih =>
    obtain ⟨out, hout⟩ := ih
    obtain ⟨msgs, hmsgs⟩ := isSome_iff_exists.mp (hok.block b)
    exact ⟨msgs.2 ++ msgs.1.filterMap (recoverSig env) ++ out, by
      simp [messagesForBlocks, hmsgs, hout]⟩

theorem mirrors_foldl_put (h : Mirrors st q) (hkey : ∀ m ∈ out, ∃ k, m.message.fromAddr = .key k)
    (hfree : ∀ m ∈ out, st.mp.pendingMap.at m.message.fromAddr m.message.nonce = none) :
    Mirrors { st with rmsgs := out.foldl MsgMap.put st.rmsgs } (out.foldl MsgMap.put q) := by
  induction out generalizing st q with
  | nil => exact h
  | cons m out ih =>
    obtain ⟨⟨k, hk⟩, hkey⟩ := forall_mem_cons.mp hkey
    obtain ⟨hm, hfree⟩ := forall_mem_cons.mp hfree
    exact ih (h.put hk hm) hkey hfree

variable {c : CopyReplay}

theorem mirrors_foldl {α : Type} {f : Replay → α → Replay} {g : CopyReplay → α → CopyReplay}
    (hstep : ∀ {st : Replay} {c : CopyReplay} (x : α), Mirrors st c.rmsgs →
      Mirrors (f st x) (g c x).rmsgs ∧ (g c x).failed = c.failed)
    (l : List α) (h : Mirrors st c.rmsgs) :
    Mirrors (l.foldl f st) (l.foldl g c).rmsgs ∧ (l.foldl g c).failed = c.failed := by
  induction l generalizing st c with
  | nil => exact ⟨h, rfl⟩
  | cons x rest ih =>
    obtain ⟨hm, hf⟩ := hstep x h
    obtain ⟨hm', hf'⟩ := ih hm
    exact ⟨hm', hf'.trans hf⟩

section

variable (hok : LoadsSucceed env) (hkey : KeySenders env)
include hok hkey

/-- Reverting tipsets whose messages are not pending. -/
theorem mirrors_revert {revert : List TipSet}
    (hload : ∀ ts ∈ revert, ∃ pts, env.loadTipSet ts.parents = some pts)
    (h : Mirrors st c.rmsgs)
    (hfree : ∀ ts ∈ revert, NoncesIn env ts fun a n => st.mp.pendingMap.at a n = none) :
    Mirrors (revert.foldl (revertTipSet env) st) (revert.foldl (revertOnCopy env) c).rmsgs ∧
      (revert.foldl (revertOnCopy env) c).failed = c.failed := by
  induction revert generalizing st c with
  | nil => exact ⟨h, rfl⟩
  | cons ts rest ih =>
    obtain ⟨⟨pts, hpts⟩, hload⟩ := forall_mem_cons.mp hload
    obtain ⟨hts, hfree⟩ := forall_mem_cons.mp hfree
    obtain ⟨out, hout⟩ := messagesForBlocks_isSome hok ts.blks
    have hst : revertTipSet env st ts =
        ⟨{ st.mp with curTs := pts }, out.foldl put st.rmsgs, st.failed⟩ := by
      simp [revertTipSet, hpts, hout]
    have hc : revertOnCopy env c ts = ⟨out.foldl put c.rmsgs, c.failed⟩ := by
      simp [revertOnCopy, hout]
    rw [foldl_cons, foldl_cons, hst, hc]
    have hput : Mirrors ⟨{ st.mp with curTs := pts }, out.foldl put st.rmsgs, st.failed⟩
        (out.foldl put c.rmsgs) := by
      refine mirrors_foldl_put (h.move pts st.failed) (fun m hm => ?_) (fun m hm => ?_)
      · obtain ⟨b, _, msgs, hmsgs, hmem⟩ := mem_messagesForBlocks hout hm
        exact hkey b msgs hmsgs _ hmem
      · obtain ⟨b, hb, msgs, hmsgs, hmem⟩ := mem_messagesForBlocks hout hm
        exact hts b hb msgs hmsgs _ hmem
    exact ih hload hput hfree

theorem mirrors_applyBlock (b : BlockHeader) (h : Mirrors st c.rmsgs) :
    Mirrors (applyBlock env st b) (applyBlockOnCopy env c b).rmsgs ∧
      (applyBlockOnCopy env c b).failed = c.failed := by
  obtain ⟨msgs, hmsgs⟩ := isSome_iff_exists.mp (hok.block b)
  have hall := hkey b msgs hmsgs
  unfold applyBlock applyBlockOnCopy
  rw [hmsgs]
  refine ⟨?_, rfl⟩
  dsimp only
  obtain ⟨q, failed⟩ := c
  generalize appliedNonces msgs = keys at hall
  induction keys generalizing st q with
  | nil => exact h
  | cons key rest ih =>
    obtain ⟨⟨k, hk⟩, hrest⟩ := forall_mem_cons.mp hall
    obtain ⟨a, i⟩ := key
    cases hk
    exact ih _ (h.rmApplied i) hrest

theorem mirrors_apply (apply : List TipSet) (h : Mirrors st c.rmsgs) :
    Mirrors (apply.foldl (applyTipSet env) st) (apply.foldl (applyOnCopy env) c).rmsgs ∧
      (apply.foldl (applyOnCopy env) c).failed = c.failed :=
  mirrors_foldl (fun ts h => mirrors_foldl (fun b h => mirrors_applyBlock hok hkey b h) ts.blks
    (h.move ts _)) apply h

end

/-! ## The order of the applied tipsets -/

/-- The senders and nonces of the messages of tipsets. -/
def appliedKeys (env : Env) (apply : List TipSet) : List (Address × Nat) :=
  apply.flatMap fun ts => ts.blks.flatMap fun b =>
    ((env.messagesForBlock b).map appliedNonces).getD []

theorem applyOnCopy_rmsgs (apply : List TipSet) :
    (apply.foldl (applyOnCopy env) c).rmsgs =
      (appliedKeys env apply).foldl (fun r key => r.del key.1 key.2) c.rmsgs := by
  have hblocks : ∀ (blks : List BlockHeader) (c : CopyReplay),
      (blks.foldl (applyBlockOnCopy env) c).rmsgs =
        (blks.flatMap fun b => ((env.messagesForBlock b).map appliedNonces).getD []).foldl
          (fun r key => r.del key.1 key.2) c.rmsgs := by
    intro blks
    induction blks with
    | nil => intro c; rfl
    | cons b rest ih =>
      intro c
      rw [foldl_cons, ih, flatMap_cons, foldl_append]
      unfold applyBlockOnCopy
      cases env.messagesForBlock b <;> rfl
  induction apply generalizing c with
  | nil => rfl
  | cons ts rest ih =>
    rw [foldl_cons, ih]
    unfold applyOnCopy appliedKeys
    rw [hblocks, flatMap_cons, foldl_append]

theorem at_foldl_del (keys : List (Address × Nat)) (a : Address) (n : Nat) :
    (keys.foldl (fun r key => r.del key.1 key.2) q).at a n =
      if (a, n) ∈ keys then none else q.at a n := by
  induction keys generalizing q with
  | nil => simp
  | cons key rest ih =>
    rw [foldl_cons, ih, at_del]
    by_cases hmem : (a, n) ∈ rest
    · rw [if_pos hmem, if_pos (mem_cons_of_mem _ hmem)]
    · rw [if_neg hmem]
      by_cases heq : (a, n) = key
      · rw [if_pos (by rw [← heq]; exact ⟨rfl, rfl⟩),
          if_pos (by rw [heq]; exact mem_cons_self)]
      · rw [if_neg fun h => heq (Prod.ext h.1 h.2), if_neg]
        intro h
        exact (mem_cons.mp h).elim heq hmem

/-- On the copy, the order of the tipsets makes no difference. -/
theorem at_applyOnCopy_reverse (apply : List TipSet) (a : Address) (n : Nat) :
    (apply.reverse.foldl (applyOnCopy env) c).rmsgs.at a n =
      (apply.foldl (applyOnCopy env) c).rmsgs.at a n := by
  rw [applyOnCopy_rmsgs, applyOnCopy_rmsgs, at_foldl_del, at_foldl_del]
  have hmem : (a, n) ∈ appliedKeys env apply.reverse ↔ (a, n) ∈ appliedKeys env apply := by
    simp [appliedKeys]
  simp only [hmem]

/-! ## Adding the collected messages again -/

theorem mem_readdOrder {r : MsgMap} : m ∈ readdOrder env r ↔ ∃ a n, r.at a n = some m := by
  unfold readdOrder
  simp only [mem_flatMap, (env.order.perm _).mem_iff, mem_values]
  constructor
  · rintro ⟨s, ⟨a, ha⟩, n, hn⟩
    exact ⟨a, n, by simp [MsgMap.at, ha, hn]⟩
  · rintro ⟨a, n, h⟩
    obtain ⟨s, hs, hn⟩ := bind_eq_some_iff.mp h
    exact ⟨s, ⟨a, hs⟩, n, hn⟩

/-- A message whose place is free goes there. -/
theorem readd_free (hok : LoadsSucceed env) (hk : m.message.fromAddr = .key k)
    (hfree : mp.pendingAt k m.message.nonce = none) : Puts mp (readd env mp m) k m := by
  obtain ⟨act, hact⟩ := isSome_iff_exists.mp (hok.actor k mp.curTs)
  exact addLocked_free (hok.signed m) (hok.message m.message) (by rw [hk]; rfl)
    (by rw [hk]; exact hact) hfree false

/-- A message that is already pending is rejected. -/
theorem readd_present (hk : m.message.fromAddr = .key k)
    (hpresent : mp.pendingAt k m.message.nonce = some m) : Keeps mp (readd env mp m) := by
  have hra : resolveToKey env mp.curTs m.message.fromAddr = some k := by rw [hk]; rfl
  obtain ⟨mset, hms, hm⟩ := bind_eq_some_iff.mp hpresent
  have hadd : mset.add m false false =
      .error (.alreadyInMpool m.message.fromAddr m.message.nonce) := by
    simp [MsgSet.add, hm]
  unfold readd addSkipChecks addLocked
  split
  · exact Keeps.refl mp
  · rw [hra]
    dsimp only
    rw [hms]
    simp only [addToMset, hadd]
    exact Keeps.refl mp

/-- A message whose place is free, or that is there already, is in its place
afterwards, and nothing else has changed. -/
theorem at_readd (hok : LoadsSucceed env) (hk : m.message.fromAddr = .key k)
    (hplace : mp.pendingMap.at m.message.fromAddr m.message.nonce = none ∨
      mp.pendingMap.at m.message.fromAddr m.message.nonce = some m) :
    ∀ a n, (readd env mp m).pendingMap.at a n =
      if a = m.message.fromAddr ∧ n = m.message.nonce then some m
      else mp.pendingMap.at a n := by
  rw [hk, at_pendingMap] at hplace
  refine at_pendingMap_eq _ (fun k' n => ?_) (fun a n ha => ?_)
  · rw [at_pendingMap, hk]
    rcases hplace with h | h
    · rw [(readd_free hok hk h).pendingAt]
      simp
    · rw [(readd_present hk h).pendingAt]
      split
      · next heq => rw [Address.key.inj heq.1, heq.2, h]
      · rfl
  · rw [at_pendingMap_none mp ha, if_neg]
    rintro ⟨rfl, _⟩
    exact ha k hk.symm

/-- Adding a list of messages, each free or already in its place. -/
theorem foldl_readd (hok : LoadsSucceed env) {r : MsgMap} {msgs : List SignedMessage}
    (hr : ∀ m ∈ msgs, r.at m.message.fromAddr m.message.nonce = some m)
    (hkey : ∀ m ∈ msgs, ∃ k, m.message.fromAddr = .key k)
    (hplace : ∀ m ∈ msgs, mp.pendingMap.at m.message.fromAddr m.message.nonce = none ∨
      mp.pendingMap.at m.message.fromAddr m.message.nonce = some m) (a : Address) (n : Nat) :
    (msgs.foldl (readd env) mp).pendingMap.at a n =
      if ∃ m ∈ msgs, m.message.fromAddr = a ∧ m.message.nonce = n then r.at a n
      else mp.pendingMap.at a n := by
  induction msgs generalizing mp with
  | nil => simp
  | cons m rest ih =>
    obtain ⟨⟨k, hk⟩, hkey⟩ := forall_mem_cons.mp hkey
    obtain ⟨hm, hr⟩ := forall_mem_cons.mp hr
    obtain ⟨hfirst, hplace⟩ := forall_mem_cons.mp hplace
    have hstep := at_readd hok hk hfirst
    have hsame : ∀ m' ∈ rest, m'.message.fromAddr = m.message.fromAddr →
        m'.message.nonce = m.message.nonce → m' = m := by
      intro m' hm' hf hn
      have h1 := hr m' hm'
      rw [hf, hn, hm] at h1
      exact (some.inj h1).symm
    rw [foldl_cons, ih hr hkey, hstep]
    · by_cases hrest : ∃ m' ∈ rest, m'.message.fromAddr = a ∧ m'.message.nonce = n
      · obtain ⟨m', hm', h⟩ := hrest
        rw [if_pos ⟨m', hm', h⟩, if_pos ⟨m', mem_cons_of_mem _ hm', h⟩]
      · rw [if_neg hrest]
        by_cases heq : a = m.message.fromAddr ∧ n = m.message.nonce
        · rw [if_pos heq, if_pos ⟨m, mem_cons_self, heq.1.symm, heq.2.symm⟩, heq.1, heq.2, hm]
        · rw [if_neg heq, if_neg]
          rintro ⟨m', hm', h⟩
          rcases mem_cons.mp hm' with rfl | hm'
          · exact heq ⟨h.1.symm, h.2.symm⟩
          · exact hrest ⟨m', hm', h⟩
    · intro m' hm'
      rw [hstep]
      split
      · next heq => exact .inr (by rw [hsame m' hm' heq.1 heq.2])
      · exact hplace m' hm'

/-- What `HeadChange` ends with, from what it has collected. -/
theorem at_headChange (hok : LoadsSucceed env) {revert apply : List TipSet}
    (h : Mirrors (replayChange env mp revert apply) q) (a : Address) (n : Nat) :
    (headChange env mp revert apply).1.pendingMap.at a n = q.at a n := by
  unfold headChange
  generalize replayChange env mp revert apply = st at h
  have hmem : ∀ m ∈ readdOrder env st.rmsgs,
      st.rmsgs.at m.message.fromAddr m.message.nonce = some m := by
    intro m hm
    obtain ⟨a, n, hat⟩ := mem_readdOrder.mp hm
    obtain ⟨rfl, rfl⟩ := h.filed a n m hat
    exact hat
  rw [foldl_readd hok hmem (fun m hm => h.key _ _ (by rw [hmem m hm]; simp))
    (fun m hm => .inl (h.disjoint _ _ (by rw [hmem m hm]; simp))), h.merged]
  cases hat : st.rmsgs.at a n with
  | some m =>
    obtain ⟨hf, hn⟩ := h.filed a n m hat
    rw [if_pos ⟨m, mem_readdOrder.mpr ⟨a, n, hat⟩, hf, hn⟩]
    rfl
  | none =>
    rw [if_neg]
    · rfl
    · rintro ⟨m, hm, rfl, rfl⟩
      rw [hmem m hm] at hat
      cases hat

/-- A tipset that only the old head has among its ancestors has a parent: all
walks end in the genesis tipset. -/
theorem load_parent_of_reverted {t : BlockTree} (hload : env.loadTipSet = t.loadTipSet)
    {a b ts : TipSet} {A B : List TipSet} (hA : t.Walk a A) (hB : t.Walk b B) (hin : ts ∈ A)
    (hout : ts ∉ B) : ∃ pts, env.loadTipSet ts.parents = some pts := by
  have hne : ts ≠ t.genesis := by
    rintro rfl
    exact hout hB.genesis_mem
  obtain ⟨p, hp, _⟩ := t.load_parent (hA.mem_has hin) hne
  exact ⟨p, by rw [hload]; exact hp⟩

/-- A nonce that its account has used is not pending either. -/
theorem noncesIn_free {ts : TipSet} (hkey : KeySenders env) (hbelow : NoneBelow env mp)
    (h : NoncesIn env ts fun a n => BelowAccount env mp a n ∨ mp.pendingMap.at a n = none) :
    NoncesIn env ts fun a n => mp.pendingMap.at a n = none := by
  intro blk hblk msgs hmsgs key hmem
  rcases h blk hblk msgs hmsgs key hmem with hlt | hnone
  · obtain ⟨k, hk⟩ := hkey blk msgs hmsgs key hmem
    rw [hk] at hlt ⊢
    rw [at_pendingMap]
    exact hbelow k key.2 hlt
  · exact hnone

end HeadChangeLemmas

open HeadChangeLemmas in
/-- A head change along a path of the block tree leaves in the pool, for each
sender and nonce, the message that `getPendingMessages` computes for the new
head from the pool as it was. -/
theorem headChange_eq_getPendingMessages {env : Env} {t : BlockTree} {mp : Pool} {b : TipSet}
    (hload : env.loadTipSet = t.loadTipSet) (ha : t.Has mp.curTs) (hb : t.Has b)
    (hok : LoadsSucceed env) (hkey : KeySenders env) (hbelow : NoneBelow env mp)
    (honce : OncePerNonce env t mp b) :
    ∃ revert apply result, headChangePath t.loadTipSet mp.curTs b = some (revert, apply) ∧
      getPendingMessages env mp mp.curTs b = .ok result ∧
      ∀ a n, (headChange env mp revert apply).1.pendingMap.at a n = result.at a n := by
  obtain ⟨A, hA⟩ := ha.walk
  obtain ⟨B, hB⟩ := hb.walk
  have hops := BlockTree.reorgOps_eq hA hB
  have hpath := BlockTree.headChangePath_eq hA hB
  generalize hrev : A.reverse.filter (· ∉ B) = revert at hops hpath
  have happ : B.filter (· ∉ A) = (B.reverse.filter (· ∉ A)).reverse := by
    rw [filter_reverse, reverse_reverse]
  rw [happ] at hpath
  generalize happly : B.reverse.filter (· ∉ A) = apply at hops hpath
  have hmem : ∀ ts ∈ revert, ts ∈ A ∧ ts ∉ B := by
    intro ts hts
    rw [← hrev, mem_filter, mem_reverse] at hts
    exact ⟨hts.1, of_decide_eq_true hts.2⟩
  have hparent : ∀ ts ∈ revert, ∃ pts, env.loadTipSet ts.parents = some pts :=
    fun ts hts => load_parent_of_reverted hload hA hB (hmem ts hts).1 (hmem ts hts).2
  have hfree : ∀ ts ∈ revert, NoncesIn env ts fun a n => mp.pendingMap.at a n = none :=
    fun ts hts => noncesIn_free hkey hbelow (honce A B hA hB ts (hmem ts hts).1 (hmem ts hts).2)
  have hstart : Mirrors ⟨mp, ∅, false⟩ mp.pendingMap :=
    ⟨fun _ _ => rfl, fun _ _ h => absurd rfl h, fun _ _ _ h => (nomatch h),
      fun _ _ h => absurd rfl h⟩
  obtain ⟨hm, hf⟩ := mirrors_revert hok hkey hparent (c := ⟨mp.pendingMap, false⟩) hstart hfree
  obtain ⟨hm', _⟩ := mirrors_apply hok hkey apply.reverse hm
  obtain ⟨_, hf'⟩ := mirrors_apply hok hkey apply hm
  have hchange := at_headChange hok hm'
  by_cases hsync : mp.curTs.height = b.height ∧ mp.curTs.equals b = true
  · -- the same tipset: nothing to revert or apply
    have heq : mp.curTs = b := (BlockTree.equals_iff ha hb).mp hsync.2
    obtain rfl : A = B := hA.unique (heq ▸ hB)
    have hnil : A.reverse.filter (· ∉ A) = [] :=
      filter_eq_nil_iff.mpr fun x hx => by simpa using hx
    rw [hnil] at hrev happly
    subst hrev happly
    refine ⟨[], [], mp.pendingMap, hpath, if_pos hsync, hchange⟩
  · refine ⟨revert, apply.reverse, (apply.foldl (applyOnCopy env)
      (revert.foldl (revertOnCopy env) ⟨mp.pendingMap, false⟩)).rmsgs, hpath, ?_, fun a n => ?_⟩
    · unfold getPendingMessages runHeadChange
      rw [if_neg hsync, hload, hops]
      exact if_neg (by rw [hf', hf]; exact Bool.false_ne_true)
    · rw [hchange, at_applyOnCopy_reverse]

/-- The account has sent two messages in `leftTs`, of which
`rightTs` has the first. -/
def forkedEnv : Env :=
  calmEnv (fun _ ts => some ⟨if ts = leftTs then 2 else if ts = rightTs then 1 else 0, 1000⟩)
    (fun b => if b.cid = 1 then [transfer (.key payer) 0, transfer (.key payer) 1]
      else if b.cid = 2 then [transfer (.key payer) 0] else [])
    forkLoad

/-- At `leftTs` the account has a third message pending. -/
def forkedPool : Pool :=
  { emptyPool leftTs with
    pending := (∅ : Table KeyAddress MsgSet).insert payer
      ⟨(∅ : Table Nat SignedMessage).insert 2 (transfer (.key payer) 2), 3, 2000000000⟩
    currentSize := 1 }

example : ((headChange forkedEnv forkedPool [leftTs] [rightTs]).1.pendingMap.get?
    (.key payer)).map (fun s => s.keys) = some [1, 2] := by decide

namespace HeadChangeLemmas

theorem forkedEnv_nonces {b : BlockHeader} {msgs : List Message × List SignedMessage}
    (h : forkedEnv.messagesForBlock b = some msgs) {key : Address × Nat}
    (hkey : key ∈ appliedNonces msgs) : key.1 = .key payer ∧ key.2 < 2 := by
  cases h
  simp only [appliedNonces, map_nil, append_nil, List.mem_map] at hkey
  obtain ⟨m, hm, rfl⟩ := hkey
  split at hm
  · rcases mem_cons.mp hm with rfl | hm
    · exact ⟨rfl, by decide⟩
    · rw [mem_singleton.mp hm]; exact ⟨rfl, by decide⟩
  · split at hm
    · rw [mem_singleton.mp hm]; exact ⟨rfl, by decide⟩
    · cases hm

end HeadChangeLemmas

open HeadChangeLemmas in
theorem headChange_forkedPool : ∃ revert apply result,
    headChangePath forkTree.loadTipSet forkedPool.curTs rightTs = some (revert, apply) ∧
      getPendingMessages forkedEnv forkedPool forkedPool.curTs rightTs = .ok result ∧
      ∀ a n, (headChange forkedEnv forkedPool revert apply).1.pendingMap.at a n =
        result.at a n := by
  refine headChange_eq_getPendingMessages rfl rfl rfl ⟨fun _ _ => rfl, fun _ => rfl, fun _ => rfl,
    fun _ => rfl⟩ (fun b msgs h key hkey => ⟨_, (forkedEnv_nonces h hkey).1⟩) ?_ ?_
  · intro k n hlt
    have hn : n < 2 := hlt _ rfl
    show ((Table.insert (∅ : Table KeyAddress MsgSet) payer _).get? k).bind _ = none
    rw [Table.get?_insert]
    split
    · show (Table.insert (∅ : Table Nat SignedMessage) 2 _).get? n = none
      rw [Table.get?_insert, if_neg (ne_of_lt hn)]
      rfl
    · rfl
  · intro A B _ _ ts _ _ b _ msgs hmsgs key hkey
    left
    intro act hact
    cases hact
    exact (forkedEnv_nonces hmsgs hkey).2

end OpenDsn.Mpool
