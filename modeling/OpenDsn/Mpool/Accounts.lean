import OpenDsn.Mpool.Size

/-!
# Accounts and the keys of the pool

A message names its sender by a key address or by another address of the account.
The pool resolves the sender and keeps the message under the key address.

* `wellKeyed_run`: in every run of pool operations each pending message is kept
  under its nonce and the key address of its sender, and has a signature of this
  key's type.
-/

namespace OpenDsn.Mpool

open Lib Chain List Option

/-- Which account an address names, and the signature type of its messages. The
state and the messages of blocks agree with it. -/
structure Accounts (env : Env) where
  account : Address → Address
  sigType : Address → SigType
  account_self : ∀ a, account (account a) = account a
  account_key : ∀ k, account (.key k) = .key k
  account_resolve : ∀ ts a k, resolveToKey env ts a = some k → account a = .key k
  actor_eq : ∀ a b ts, account a = account b → env.getActorAfter a ts = env.getActorAfter b ts
  sigType_key : ∀ k, sigType (.key k) = k.sigType
  sigType_known : ∀ a, sigType a = .bls ∨ sigType a = .secp256k1
  signed : ∀ b msgs, env.messagesForBlock b = some msgs →
    ∀ m ∈ msgs.2 ++ msgs.1.filterMap (recoverSig env),
      m.signature.type = sigType (account m.message.fromAddr)

/-- The message has a signature of its sender's type. -/
def Accounts.Signed {env : Env} (acc : Accounts env) (m : SignedMessage) : Prop :=
  m.signature.type = acc.sigType (acc.account m.message.fromAddr)

/-- The pool has every message under its nonce and the key address of its sender,
with a signature of this key's type. -/
def WellKeyed (account : Address → Address) (mp : Pool) : Prop :=
  ∀ k n m, mp.pendingAt k n = some m → m.message.nonce = n ∧
    account m.message.fromAddr = .key k ∧ m.signature.type = k.sigType

def PoolOp.env : PoolOp → Env
  | .push env _ | .pushUntrusted env _ | .add env _ | .addSkipChecks env _ | .loadLocal env
  | .remove env _ _ _ | .prune env _ _ | .headChange env _ _ | .clear env _ => env

/-- The surroundings of the operation know the accounts. A message that is added
without checks comes from a block, so it is signed by its sender. -/
def SignedOp (account : Address → Address) (op : PoolOp) : Prop :=
  ∃ acc : Accounts op.env, acc.account = account ∧
    ∀ env m, op = .addSkipChecks env m → m.signature.type = acc.sigType (account m.message.fromAddr)

namespace AccountsLemmas

open PoolLemmas HeadChangeLemmas

variable {env : Env} {acc : Accounts env} {mp mp' : Pool} {m : SignedMessage}

variable {account : Address → Address} {st : Replay}

theorem WellKeyed.mono (hw : WellKeyed account mp)
    (hsub : ∀ k n m, mp'.pendingAt k n = some m → mp.pendingAt k n = some m) :
    WellKeyed account mp' :=
  fun k n m hm => hw k n m (hsub k n m hm)

theorem AddEffect.wellKeyed (heff : AddEffect env mp m mp') (hsigned : acc.Signed m)
    (hw : WellKeyed acc.account mp) : WellKeyed acc.account mp' := by
  cases heff with
  | keeps hk => exact WellKeyed.mono hw fun k n m hm => by rwa [hk.pendingAt] at hm
  | @puts ra hra hp =>
    have haccount := acc.account_resolve _ _ _ hra
    intro k n x hx
    rw [hp.pendingAt] at hx
    split at hx
    · next hkey =>
      obtain ⟨rfl, rfl⟩ := hkey
      cases hx
      refine ⟨rfl, haccount, ?_⟩
      rw [hsigned, haccount, acc.sigType_key]
    · exact hw k n x hx

/-! ## Checked messages -/

/-- `checkMessage` accepts only signatures of the sender's key. -/
theorem signed_of_checkMessage (h : checkMessage env m = .ok ()) : acc.Signed m := by
  have hkey : ∃ k, m.message.fromAddr = .key k ∧ m.signature.type = k.sigType := by
    have hverify : verifyMsgSig env m = .ok () := by
      unfold checkMessage at h
      split at h
      · cases h
      split at h
      · cases h
      split at h
      · cases h
      split at h
      · cases h
      split at h
      · cases h
      · exact h
    unfold verifyMsgSig at hverify
    split at hverify
    · cases hverify
    · next htype =>
      split at hverify
      · cases hverify
      split at hverify
      · cases hverify
      · next pk hfrom => exact ⟨.bls pk, hfrom, htype⟩
      · cases hverify
    · next htype =>
      split at hverify
      · cases hverify
      · next payload hfrom => exact ⟨.secp256k1 payload, hfrom, htype⟩
      · cases hverify
  obtain ⟨k, hfrom, htype⟩ := hkey
  unfold Accounts.Signed
  rw [hfrom, acc.account_key, acc.sigType_key, htype]

/-- A message that fails its check leaves the pool alone. -/
theorem unchecked {err : MpoolError} (hm : checkMessage env m = .error err) :
    (∀ untrusted, (pushWith env mp m untrusted).1 = mp) ∧ (add env mp m).1 = mp ∧
      (addLoaded env mp m).1 = mp := by
  refine ⟨fun untrusted => ?_, ?_, ?_⟩
  · rw [pushWith, hm]
  · rw [add, hm]
  · rw [addLoaded, hm]

/-- An operation that checks its message leaves the pool alone or adds a message
that is signed by its sender. -/
theorem checked_wellKeyed (hw : WellKeyed acc.account mp) (heff : AddEffect env mp m mp')
    (hcheck : ∀ err, checkMessage env m = .error err → mp' = mp) : WellKeyed acc.account mp' := by
  cases hm : checkMessage env m with
  | error err => rwa [hcheck err hm]
  | ok => exact AddEffect.wellKeyed heff (signed_of_checkMessage hm) hw

theorem loadLocalLoop_wellKeyed (msgs : List SignedMessage) (hw : WellKeyed acc.account mp) :
    WellKeyed acc.account (loadLocalLoop env mp msgs).1 := by
  induction msgs generalizing mp with
  | nil => exact hw
  | cons m rest ih =>
    have hadd := checked_wellKeyed hw (addLoaded_effect env mp m) fun _ hm => (unchecked hm).2.2
    unfold loadLocalLoop
    split
    · next heq =>
      rw [heq] at hadd
      exact ih hadd
    · next heq =>
      rw [heq] at hadd
      split
      · exact hadd
      · exact ih hadd

/-! ## Removing -/

theorem remove_wellKeyed (hw : WellKeyed account mp) (env : Env)
    (addr : Address) (nonce : Nat) (applied : Bool) :
    WellKeyed account (remove env mp addr nonce applied) := by
  refine WellKeyed.mono hw fun k n m hm => ?_
  rw [pendingAt_remove] at hm
  split at hm
  · cases hm
  · exact hm

theorem prune_wellKeyed (hw : WellKeyed account mp) (env : Env) (ts : TipSet) (ready : Bool) :
    WellKeyed account (pruneExcessMessages env mp ts ready).1 := by
  unfold pruneExcessMessages
  split
  · exact hw
  split
  · unfold pruneMessages
    split
    · exact hw
    · exact foldlRecOn _ _ hw fun mp hw m _ => remove_wellKeyed hw env _ _ false
  · exact hw

theorem get?_of_eraseAll {κ ν : Type} [DecidableEq κ] (ks : List κ) {t : Table κ ν} {k : κ} {v : ν}
    (h : (t.eraseAll ks).get? k = some v) : t.get? k = some v := by
  induction ks generalizing t with
  | nil => exact h
  | cons x ks ih =>
    have herase := ih h
    rw [Table.get?_erase] at herase
    split at herase
    · cases herase
    · exact herase

theorem clear_wellKeyed (hw : WellKeyed account mp) (env : Env)
    (alsoLocal : Bool) : WellKeyed account (clear env mp alsoLocal) := by
  refine WellKeyed.mono hw fun k n m hm => ?_
  unfold clear at hm
  split at hm
  · cases hm
  · obtain ⟨mset, hget, hn⟩ := bind_eq_some_iff.mp hm
    exact bind_eq_some_iff.mpr ⟨mset, get?_of_eraseAll _ hget, hn⟩

/-! ## Head changes -/

/-- The messages of blocks are signed by their senders. -/
theorem signed_of_mem {blks : List BlockHeader} {out : List SignedMessage}
    (h : messagesForBlocks env blks = some out) (hm : m ∈ out) : acc.Signed m := by
  induction blks generalizing out with
  | nil => cases h; cases hm
  | cons b rest ih =>
    obtain ⟨msgs, hb, h⟩ := bind_eq_some_iff.mp h
    obtain ⟨out', hrest, h⟩ := bind_eq_some_iff.mp h
    cases h
    rcases mem_append.mp hm with hm | hm
    · exact acc.signed b msgs hb m hm
    · exact ih hrest hm

/-- All messages of the map are signed by their senders. -/
def AllSigned (acc : Accounts env) (q : MsgMap) : Prop :=
  ∀ a n m, q.at a n = some m → acc.Signed m

/-- The state of a head change: the pool, and the collected messages. -/
structure ReplayOk (acc : Accounts env) (st : Replay) : Prop where
  pool : WellKeyed acc.account st.mp
  collected : AllSigned acc st.rmsgs

theorem AllSigned.put {q : MsgMap} (hq : AllSigned acc q) (hm : acc.Signed m) :
    AllSigned acc (q.put m) := by
  intro a n x hx
  rw [at_put] at hx
  split at hx
  · cases hx
    exact hm
  · exact hq a n x hx

theorem revertTipSet_ok (hst : ReplayOk acc st) (ts : TipSet) :
    ReplayOk acc (revertTipSet env st ts) := by
  unfold revertTipSet
  split
  · exact ⟨hst.pool, hst.collected⟩
  · split
    · exact ⟨hst.pool, hst.collected⟩
    · next msgs hmsgs =>
      refine ⟨hst.pool, ?_⟩
      exact foldlRecOn (motive := AllSigned acc) msgs MsgMap.put hst.collected
        fun q hq m hm => hq.put (signed_of_mem hmsgs hm)

theorem rmApplied_ok (hst : ReplayOk acc st) (key : Address × Nat) :
    ReplayOk acc (rmApplied env st key) := by
  unfold rmApplied
  split
  · refine ⟨hst.pool, fun a n m hm => ?_⟩
    rw [at_del] at hm
    split at hm
    · cases hm
    · exact hst.collected a n m hm
  · exact ⟨remove_wellKeyed hst.pool env _ _ true, hst.collected⟩

theorem applyTipSet_ok (hst : ReplayOk acc st) (ts : TipSet) :
    ReplayOk acc (applyTipSet env st ts) := by
  have hblock : ∀ (st : Replay) (b : BlockHeader), ReplayOk acc st →
      ReplayOk acc (applyBlock env st b) := by
    intro st b hst
    unfold applyBlock
    split
    · exact ⟨hst.pool, hst.collected⟩
    · exact foldlRecOn _ _ hst fun st hst key _ => rmApplied_ok hst key
  exact foldlRecOn _ _ ⟨hst.pool, hst.collected⟩ fun st hst b _ => hblock st b hst

theorem headChange_wellKeyed (hw : WellKeyed acc.account mp) (revert apply : List TipSet) :
    WellKeyed acc.account (headChange env mp revert apply).1 := by
  have hstart : ReplayOk acc ⟨mp, ∅, false⟩ := ⟨hw, fun a n m hm => nomatch hm⟩
  have hreverted : ReplayOk acc (revert.foldl (revertTipSet env) ⟨mp, ∅, false⟩) :=
    foldlRecOn _ _ hstart fun st hst ts _ => revertTipSet_ok hst ts
  have hreplay : ReplayOk acc (replayChange env mp revert apply) :=
    foldlRecOn _ _ hreverted fun st hst ts _ => applyTipSet_ok hst ts
  refine foldlRecOn _ _ hreplay.pool fun mp hw m hm => ?_
  obtain ⟨a, n, hat⟩ := mem_readdOrder.mp hm
  exact AddEffect.wellKeyed (addLocked_effect env mp m false false)
    (hreplay.collected a n m hat) hw

theorem wellKeyed_step {op : PoolOp} (hw : WellKeyed account mp)
    (hop : SignedOp account op) (hstep : poolStep mp op = some mp') : WellKeyed account mp' := by
  obtain ⟨acc, rfl, hskip⟩ := hop
  cases op <;> obtain rfl := some.inj hstep
  case push env m =>
    exact checked_wellKeyed hw (pushWith_effect env mp m false) fun _ hm => (unchecked hm).1 false
  case pushUntrusted env m =>
    exact checked_wellKeyed hw (pushWith_effect env mp m true) fun _ hm => (unchecked hm).1 true
  case add env m =>
    exact checked_wellKeyed hw (add_effect env mp m) fun _ hm => (unchecked hm).2.1
  case addSkipChecks env m =>
    exact AddEffect.wellKeyed (addLocked_effect env mp m false false) (hskip env m rfl) hw
  case loadLocal env => exact loadLocalLoop_wellKeyed _ hw
  case remove env fromAddr nonce applied => exact remove_wellKeyed hw env fromAddr nonce applied
  case prune env ts ready => exact prune_wellKeyed hw env ts ready
  case headChange env revert apply => exact headChange_wellKeyed hw revert apply
  case clear env alsoLocal => exact clear_wellKeyed hw env alsoLocal

end AccountsLemmas

open AccountsLemmas in
/-- Every pool of a run that starts with a well-keyed pool, such as an empty one, is
well keyed. -/
theorem wellKeyed_run {account : Address → Address} {mp : Pool} (hstart : WellKeyed account mp)
    {ops : List PoolOp} {states : List Pool} (h : trace poolStep mp ops = some states)
    (hops : Guarded poolStep (fun _ op => SignedOp account op) mp ops) :
    ∀ mp' ∈ states, WellKeyed account mp' :=
  trace_forall_guarded (fun _ _ _ hw hop hstep => wellKeyed_step hw hop hstep) hstart h hops

theorem wellKeyed_emptyPool (account : Address → Address) (ts : TipSet) :
    WellKeyed account (emptyPool ts) := fun _ _ _ h => (nomatch h)

end OpenDsn.Mpool
