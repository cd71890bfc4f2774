import Mathlib.Algebra.Ring.Int.Defs
import Mathlib.Order.Bounds.Basic
import OpenDsn.Lib.Run
import OpenDsn.Lib.Table
import OpenDsn.Mpool.Message

/-!
# The pending messages of one sender

`msgSet` of `chain/messagepool/messagepool.go`: the messages by nonce, the next
nonce to hand out and the funds the messages need. `add` has three modes: with
neither flag it only checks replace-by-fee, `strict` adds the limits on nonce
gaps and on the number of messages, and `untrusted` tightens these limits.
-/

namespace OpenDsn.Mpool

open Lib

def maxActorPendingMessages : Nat := 1000

def maxUntrustedActorPendingMessages : Nat := 10

def maxNonceGap : Nat := 4

/-- The smallest premium that replaces a message: `ReplaceByFeeRatioDefault`
is 1.25, so the numerator over `RbfDenom` is 64. -/
def computeMinRBF (curPrem : Int) : Int := curPrem + curPrem * 64 / 256 + 1

structure MsgSet where
  msgs : Table Nat SignedMessage
  nextNonce : Nat
  requiredFunds : Int

def newMsgSet (nonce : Nat) : MsgSet where
  msgs := ∅
  nextNonce := nonce
  requiredFunds := 0

namespace MsgSet

/-- The loop that moves a nonce past the pending ones. Each round meets
another message, so the number of messages bounds the rounds. -/
def fillGapLoop (msgs : Table Nat SignedMessage) : Nat → Nat → Nat
  | 0, n => n
  | fuel + 1, n => if (msgs.get? n).isSome then fillGapLoop msgs fuel (n + 1) else n

def fillGap (msgs : Table Nat SignedMessage) (n : Nat) : Nat := fillGapLoop msgs msgs.size n

/-- The nonce gap that `add` allows. -/
def gapLimit (untrusted : Bool) : Nat := if untrusted then 0 else maxNonceGap

/-- The number of messages that `add` allows. -/
def pendingLimit (untrusted : Bool) : Nat :=
  if untrusted then maxUntrustedActorPendingMessages else maxActorPendingMessages

/-- The next nonce after a message with this nonce was added. -/
def nextNonceAfter (ms : MsgSet) (nonce : Nat) : Nat :=
  if nonce = ms.nextNonce then fillGap ms.msgs (nonce + 1) else ms.nextNonce

/-- `add`; the flag of the result says whether the number of messages grew. -/
def add (ms : MsgSet) (m : SignedMessage) (strict untrusted : Bool) :
    Except MpoolError (MsgSet × Bool) :=
  let nonce := m.message.nonce
  if nonce ≠ ms.nextNonce ∧ strict ∧ nonce > ms.nextNonce + gapLimit untrusted then
    .error (.nonceGap nonce ms.nextNonce)
  else
    let nextNonce := ms.nextNonceAfter nonce
    let nonceGap := nonce > ms.nextNonce
    match ms.msgs.get? nonce with
    | some exms =>
        if strict ∧ nonceGap then .error (.replaceAcrossGap nonce nextNonce)
        else if m.cid ≠ exms.cid then
          let minPrice := computeMinRBF exms.message.gasPremium
          if m.message.gasPremium < minPrice then
            .error (.rbfTooLowPremium m.message.fromAddr nonce minPrice m.message.gasPremium)
          else
            .ok ({ msgs := ms.msgs.insert nonce m
                   nextNonce := nextNonce
                   requiredFunds := ms.requiredFunds - exms.message.requiredFunds
                     + m.message.requiredFunds }, false)
        else .error (.alreadyInMpool m.message.fromAddr nonce)
    | none =>
        if strict ∧ ms.msgs.size ≥ pendingLimit untrusted then .error .tooManyPendingMessages
        else
          .ok ({ msgs := ms.msgs.insert nonce m
                 nextNonce := nextNonce
                 requiredFunds := ms.requiredFunds + m.message.requiredFunds }, true)

/-- `rm`; `applied` tells a message that was included in a block from one that
was pruned. -/
def rm (ms : MsgSet) (nonce : Nat) (applied : Bool) : MsgSet :=
  match ms.msgs.get? nonce with
  | none =>
      -- an applied message we did not know may still fill a gap
      if applied ∧ nonce ≥ ms.nextNonce then
        { ms with nextNonce := fillGap ms.msgs (nonce + 1) }
      else ms
  | some m =>
      { msgs := ms.msgs.erase nonce
        nextNonce :=
          if applied then (if nonce ≥ ms.nextNonce then nonce + 1 else ms.nextNonce)
          else (if nonce < ms.nextNonce then nonce else ms.nextNonce)
        requiredFunds := ms.requiredFunds - m.message.requiredFunds }

def getRequiredFunds (ms : MsgSet) (nonce : Nat) : Int :=
  match ms.msgs.get? nonce with
  | some m => ms.requiredFunds - m.message.requiredFunds
  | none => ms.requiredFunds

/-! ## The gap loop -/

theorem fillGapLoop_spec (msgs : Table Nat SignedMessage) (fuel n : Nat) :
    n ≤ fillGapLoop msgs fuel n ∧
      (∀ k, n ≤ k → k < fillGapLoop msgs fuel n → (msgs.get? k).isSome) ∧
      ((msgs.get? (fillGapLoop msgs fuel n)).isSome → fillGapLoop msgs fuel n = n + fuel) := by
  fun_induction fillGapLoop msgs fuel n with
  | case1 n => exact ⟨le_refl n, fun k hk hlt => absurd hk (Nat.not_le_of_lt hlt), fun _ => rfl⟩
  | case2 fuel n hn ih =>
    obtain ⟨hle, hpassed, hend⟩ := ih
    refine ⟨Nat.le_of_succ_le hle, fun k hk hlt => ?_, fun h => (hend h).trans (by omega)⟩
    rcases hk.eq_or_lt with rfl | hk
    · exact hn
    · exact hpassed k hk hlt
  | case3 fuel n hn =>
    exact ⟨le_refl n, fun k hk hlt => absurd hk (Nat.not_le_of_lt hlt), fun h => absurd h hn⟩

/-- The loop finds the first nonce from `n` on that is not pending. -/
theorem fillGap_least (msgs : Table Nat SignedMessage) (n : Nat) :
    IsLeast {k | n ≤ k ∧ msgs.get? k = none} (fillGap msgs n) := by
  unfold fillGap
  obtain ⟨hle, hpassed, hend⟩ := fillGapLoop_spec msgs msgs.size n
  refine ⟨⟨hle, ?_⟩, fun k ⟨hk, hfree⟩ => ?_⟩
  · by_contra hne
    have hpending := Option.isSome_iff_ne_none.mpr hne
    -- one pending nonce more than there are messages
    have hsub : List.range' n (msgs.size + 1) ⊆ msgs.keys := by
      intro k hk
      obtain ⟨hk, hlt⟩ := List.mem_range'_1.mp hk
      refine AList.mem_keys.mp (AList.lookup_isSome.mp ?_)
      rcases (Nat.le_of_lt_succ hlt).lt_or_eq with hlt | rfl
      · exact hpassed k hk ((hend hpending).symm ▸ hlt)
      · rw [hend hpending] at hpending
        exact hpending
    have hlen := (List.subperm_of_subset List.nodup_range' hsub).length_le
    rw [List.length_range', ← Table.size_eq_length_keys] at hlen
    exact absurd hlen (Nat.not_succ_le_self _)
  · by_contra hlt
    exact absurd hfree (Option.isSome_iff_ne_none.mp (hpassed k hk (Nat.lt_of_not_le hlt)))

/-! ## The two operations on the messages -/

variable {ms ms' : MsgSet} {m : SignedMessage} {strict untrusted incr applied : Bool}
  {nonce n : Nat}

/-- A successful `add` puts the message at its nonce and reports whether the
nonce was free. -/
theorem add_ok (h : ms.add m strict untrusted = .ok (ms', incr)) :
    ms' = ⟨ms.msgs.insert m.message.nonce m, ms.nextNonceAfter m.message.nonce,
        ms.getRequiredFunds m.message.nonce + m.message.requiredFunds⟩ ∧
      incr = (ms.msgs.get? m.message.nonce).isNone := by
  unfold add at h
  unfold getRequiredFunds
  dsimp only at h
  split at h
  · cases h
  split at h
  · next hex =>
    rw [hex]
    split at h
    · cases h
    split at h
    · split at h
      · cases h
      · cases h; exact ⟨rfl, rfl⟩
    · cases h
  · next hex =>
    rw [hex]
    split at h
    · cases h
    · cases h; exact ⟨rfl, rfl⟩

/-- A message with a free nonce is taken, unless a `strict` call finds it beyond the gap or the
set full. -/
theorem add_of_free (hfree : ms.msgs.get? m.message.nonce = none)
    (hstrict : strict = true → m.message.nonce ≤ ms.nextNonce + gapLimit untrusted ∧
      ms.msgs.size < pendingLimit untrusted) :
    ∃ ms', ms.add m strict untrusted = .ok (ms', true) := by
  unfold add
  rw [if_neg fun h => Nat.not_lt_of_le (hstrict h.2.1).1 h.2.2, hfree]
  exact ⟨_, if_neg fun h => Nat.not_lt_of_le h.2 (hstrict h.1).2⟩

theorem rm_msgs : (ms.rm nonce applied).msgs = ms.msgs.erase nonce := by
  unfold rm
  split
  · next h =>
    rw [Table.erase_of_get?_none h]
    split <;> rfl
  · rfl

theorem rm_requiredFunds : (ms.rm nonce applied).requiredFunds = ms.getRequiredFunds nonce := by
  unfold rm getRequiredFunds
  cases ms.msgs.get? nonce with
  | none => dsimp only; split <;> rfl
  | some m => rfl

theorem rm_size (h : ms.msgs.get? nonce = some m) (applied : Bool) :
    ms.msgs.size = (ms.rm nonce applied).msgs.size + 1 := by
  rw [rm_msgs]
  exact Table.size_erase h

end MsgSet

/-! ## Histories -/

/-- A message set, and the nonces of its sender that were applied: those below `applied`. -/
structure Sender where
  ms : MsgSet
  applied : Nat

inductive SetCall
  | add (m : SignedMessage) (strict untrusted : Bool)
  | rm (nonce : Nat) (applied : Bool)

/-- An `add` that fails leaves the set as it was. -/
def Sender.step (s : Sender) : SetCall → Option Sender
  | .add m strict untrusted =>
      match s.ms.add m strict untrusted with
      | .ok (ms, _) => some { s with ms }
      | .error _ => some s
  | .rm nonce applied =>
      some ⟨s.ms.rm nonce applied, if applied then nonce + 1 else s.applied⟩

/-- Messages are applied in the order of their nonces, and what is added or pruned is not
applied yet. -/
def InOrder (s : Sender) : SetCall → Prop
  | .add m _ _ => s.applied ≤ m.message.nonce
  | .rm nonce true => nonce = s.applied
  | .rm nonce false => s.applied ≤ nonce ∧ s.ms.msgs.get? nonce ≠ none

instance : ∀ s call, Decidable (InOrder s call)
  | _, .add .. => inferInstanceAs (Decidable (_ ≤ _))
  | _, .rm _ true => inferInstanceAs (Decidable (_ = _))
  | _, .rm _ false => inferInstanceAs (Decidable (_ ∧ _))

/-- The next nonce is the least one that is neither applied nor pending, and the required
funds are those of the pending messages. -/
structure Sender.Exact (s : Sender) : Prop where
  nextNonce : IsLeast {k | s.applied ≤ k ∧ s.ms.msgs.get? k = none} s.ms.nextNonce
  requiredFunds :
    s.ms.requiredFunds = (s.ms.msgs.values.map fun m => m.message.requiredFunds).sum

namespace Sender

variable {s s' : Sender} {nonce : Nat}

theorem Exact.getRequiredFunds (h : s.Exact) (nonce : Nat) : s.ms.getRequiredFunds nonce =
    ((s.ms.msgs.erase nonce).values.map fun m => m.message.requiredFunds).sum := by
  have hsum := h.requiredFunds
  unfold MsgSet.getRequiredFunds
  split
  · next m hm =>
    rw [Table.sum_erase _ hm] at hsum
    omega
  · next hm => rw [Table.erase_of_get?_none hm, hsum]

theorem Exact.add (h : s.Exact) (m : SignedMessage) :
    IsLeast {k | s.applied ≤ k ∧ (s.ms.msgs.insert m.message.nonce m).get? k = none}
      (s.ms.nextNonceAfter m.message.nonce) := by
  obtain ⟨⟨hle, hfree⟩, hleast⟩ := h.nextNonce
  have hset : ∀ k, (s.ms.msgs.insert m.message.nonce m).get? k = none ↔
      k ≠ m.message.nonce ∧ s.ms.msgs.get? k = none := by
    intro k
    rw [Table.get?_insert]
    by_cases hk : k = m.message.nonce <;> simp [hk]
  unfold MsgSet.nextNonceAfter
  split
  · next heq =>
    obtain ⟨⟨hlt, hfree'⟩, hleast'⟩ := MsgSet.fillGap_least s.ms.msgs (m.message.nonce + 1)
    refine ⟨⟨by omega, (hset _).mpr ⟨by omega, hfree'⟩⟩, fun k hk => ?_⟩
    obtain ⟨hne, hk'⟩ := (hset k).mp hk.2
    have hnext := hleast ⟨hk.1, hk'⟩
    exact hleast' ⟨by omega, hk'⟩
  · next hne =>
    exact ⟨⟨hle, (hset _).mpr ⟨Ne.symm hne, hfree⟩⟩,
      fun k hk => hleast ⟨hk.1, ((hset k).mp hk.2).2⟩⟩

theorem Exact.apply (h : s.Exact) :
    IsLeast {k | s.applied + 1 ≤ k ∧ (s.ms.msgs.erase s.applied).get? k = none}
      (s.ms.rm s.applied true).nextNonce := by
  obtain ⟨⟨hle, hfree⟩, hleast⟩ := h.nextNonce
  unfold MsgSet.rm
  cases hm : s.ms.msgs.get? s.applied with
  | none =>
    have hnext := hleast ⟨le_refl _, hm⟩
    rw [Table.erase_of_get?_none hm, if_pos ⟨rfl, hnext⟩]
    exact MsgSet.fillGap_least _ _
  | some m =>
    have hne : s.ms.nextNonce ≠ s.applied := fun heq => nomatch (heq ▸ hfree).symm.trans hm
    have hset : ∀ k, s.applied + 1 ≤ k → (s.ms.msgs.erase s.applied).get? k = s.ms.msgs.get? k :=
      fun k hk => by rw [Table.get?_erase, if_neg (by omega)]
    dsimp only
    rw [if_pos rfl, if_neg (by omega)]
    have hlt : s.applied + 1 ≤ s.ms.nextNonce := by omega
    refine ⟨⟨hlt, (hset _ hlt).trans hfree⟩, fun k hk => hleast ⟨Nat.le_of_succ_le hk.1, ?_⟩⟩
    rw [← hset k hk.1]
    exact hk.2

theorem Exact.prune (h : s.Exact) (hle : s.applied ≤ nonce)
    (hpending : s.ms.msgs.get? nonce ≠ none) :
    IsLeast {k | s.applied ≤ k ∧ (s.ms.msgs.erase nonce).get? k = none}
      (s.ms.rm nonce false).nextNonce := by
  obtain ⟨⟨hle', hfree⟩, hleast⟩ := h.nextNonce
  obtain ⟨m, hm⟩ := Option.ne_none_iff_exists'.mp hpending
  have hset : ∀ k, (s.ms.msgs.erase nonce).get? k = none ↔ k = nonce ∨ s.ms.msgs.get? k = none := by
    intro k
    rw [Table.get?_erase]
    by_cases hk : k = nonce <;> simp [hk]
  have hnext : (s.ms.rm nonce false).nextNonce = min nonce s.ms.nextNonce := by
    unfold MsgSet.rm
    rw [hm]
    rw [if_neg Bool.false_ne_true, min_def_lt]
  rw [hnext]
  refine ⟨⟨le_min hle hle', (hset _).mpr ?_⟩, fun k hk => ?_⟩
  · rcases min_choice nonce s.ms.nextNonce with heq | heq
    · exact .inl heq
    · exact .inr (by rw [heq]; exact hfree)
  · rcases (hset k).mp hk.2 with rfl | hk'
    · exact min_le_left _ _
    · exact (min_le_right _ _).trans (hleast ⟨hk.1, hk'⟩)

theorem Exact.step {call : SetCall} (h : s.Exact) (hcall : InOrder s call)
    (hstep : s.step call = some s') : s'.Exact := by
  cases call with
  | add m strict untrusted =>
    unfold Sender.step at hstep
    dsimp only at hstep
    split at hstep
    · next ms incr hadd =>
      cases hstep
      obtain ⟨rfl, -⟩ := MsgSet.add_ok hadd
      refine ⟨h.add m, ?_⟩
      rw [h.getRequiredFunds, add_comm]
      rfl
    · cases hstep
      exact h
  | rm nonce applied =>
    cases hstep
    have hfunds : (s.ms.rm nonce applied).requiredFunds =
        ((s.ms.rm nonce applied).msgs.values.map fun m => m.message.requiredFunds).sum := by
      rw [MsgSet.rm_requiredFunds, h.getRequiredFunds, MsgSet.rm_msgs]
    refine ⟨?_, hfunds⟩
    rw [MsgSet.rm_msgs]
    cases applied with
    | true =>
      obtain rfl : nonce = s.applied := hcall
      exact h.apply
    | false => exact h.prune hcall.1 hcall.2

end Sender

/-- In every history whose calls are in order, the next nonce and the required funds are
exact. -/
theorem msgSet_exact {n : Nat} {calls : List SetCall} {ss : List Sender}
    (h : trace Sender.step ⟨newMsgSet n, n⟩ calls = some ss)
    (hcalls : Guarded Sender.step InOrder ⟨newMsgSet n, n⟩ calls) : ∀ s ∈ ss, s.Exact := by
  have hnew : Sender.Exact ⟨newMsgSet n, n⟩ := ⟨⟨⟨le_refl n, rfl⟩, fun _ hk => hk.1⟩, rfl⟩
  exact trace_forall_guarded (fun _ _ _ hs hc hstep => hs.step hc hstep) hnew h hcalls

/-- A message over a gap, the one that fills it, and the two ways to remove them. -/
def gapCalls : List SetCall :=
  let msg nonce : SignedMessage := ⟨⟨0, .id 1, .id 2, nonce, 5, 1, 1, 1, 0, []⟩, ⟨.bls, []⟩⟩
  [.add (msg 4) true false, .add (msg 3) true false, .rm 3 true, .rm 4 false]

theorem msgSet_exact_gap : ∃ ss, trace Sender.step ⟨newMsgSet 3, 3⟩ gapCalls = some ss ∧
    ∀ s ∈ ss, s.Exact :=
  exists_trace_of rfl fun _ h => msgSet_exact h (by decide)

end OpenDsn.Mpool
