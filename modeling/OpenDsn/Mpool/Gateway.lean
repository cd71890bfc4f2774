import OpenDsn.Mpool.HeadChange

/-!
# The limits for gateway clients

`PushUntrusted` is the entry for messages that the gateway takes from clients.
Its comment promises strict checks: no nonce gaps, and at most
`MaxUntrustedActorPendingMessages` pending messages for the sender. `addTs` asks
for the strict checks with `!local` though, and `PushUntrusted` passes `local`,
so that `msgSet.add` never makes them.

* `gatewayLimits_iff_pushesFit`: over a run of pushes and applied blocks the
  limits hold exactly as long as every push that gets through keeps to them by
  itself.
-/

namespace OpenDsn.Mpool

open Lib Chain List Option

/-! ## Runs of pushes and applied blocks -/

/-- An account and its nonce in the state after each tipset; no block takes a
nonce back. -/
structure Account where
  key : KeyAddress
  nonceAt : TipSet → Nat
  mono : ∀ p c : TipSet, c.parents = p.key → nonceAt p ≤ nonceAt c

/-- The chain tells the nonce of the account, and has past it only messages that
used theirs. -/
structure Tells (env : Env) (acc : Account) : Prop where
  nonce : ∀ {addr ts ts' act}, resolveToKey env ts' addr = some acc.key →
    env.getActorAfter addr ts = some act → act.nonce = acc.nonceAt ts
  used : ∀ {ts b msgs addr n ts'}, b ∈ ts.blks → env.messagesForBlock b = some msgs →
    (addr, n) ∈ appliedNonces msgs → resolveToKey env ts' addr = some acc.key →
    n < acc.nonceAt ts

inductive GatewayOp (acc : Account) where
  | pushUntrusted (env : Env) (tells : Tells env acc) (m : SignedMessage)
  | applyBlocks (env : Env) (tells : Tells env acc) (tss : List TipSet)

/-- Each tipset lies on the one before it. -/
def onTop : TipSet → List TipSet → Bool
  | _, [] => true
  | p, c :: rest => c.parents = p.key && onTop c rest

def gatewayStep (acc : Account) (mp : Pool) : GatewayOp acc → Option Pool
  | .pushUntrusted env _ m => some (pushUntrusted env mp m).1
  | .applyBlocks env _ tss =>
      if onTop mp.curTs tss then some (headChange env mp [] tss).1 else none

/-- The pending messages of a sender. -/
def Pool.msgsOf (mp : Pool) (ra : KeyAddress) : Table Nat SignedMessage :=
  ((mp.pending.get? ra).map MsgSet.msgs).getD ∅

/-- Every nonce from the account's nonce up to `n` is pending. -/
def NoGapBelow (acc : Account) (mp : Pool) (n : Nat) : Prop :=
  ∀ i, acc.nonceAt mp.curTs ≤ i → i < n → mp.pendingAt acc.key i ≠ none

/-- What the comment on `PushUntrusted` promises. -/
structure GatewayLimits (acc : Account) (mp : Pool) : Prop where
  noGap : ∀ n, mp.pendingAt acc.key n ≠ none → NoGapBelow acc mp n
  atMost : (mp.msgsOf acc.key).size ≤ maxUntrustedActorPendingMessages

/-- The message gets past everything that `PushUntrusted` looks at before
`msgSet.add`. -/
structure Passes (env : Env) (mp : Pool) (m : SignedMessage) : Prop where
  checked : checkMessage env m = .ok ()
  admitted : ∃ publish, checkBeforeAdd env mp m mp.curTs true = .ok publish
  signed : env.putSigned m = true
  message : env.putMessage m.message = true

/-- A push of the account that gets through replaces a pending message, or
continues the pending ones without a gap while there is room. -/
def PushFits (acc : Account) (mp : Pool) : GatewayOp acc → Prop
  | .pushUntrusted env _ m =>
      Passes env mp m → resolveToKey env mp.curTs m.message.fromAddr = some acc.key →
        mp.pendingAt acc.key m.message.nonce ≠ none ∨
          (mp.msgsOf acc.key).size < maxUntrustedActorPendingMessages ∧
            NoGapBelow acc mp m.message.nonce
  | .applyBlocks _ _ _ => True

namespace GatewayLemmas

open PoolLemmas HeadChangeLemmas

variable {acc : Account} {env : Env} {mp mp' : Pool} {m : SignedMessage}

theorem get?_msgsOf (mp : Pool) (ra : KeyAddress) (n : Nat) :
    (mp.msgsOf ra).get? n = mp.pendingAt ra n := by
  unfold Pool.msgsOf Pool.pendingAt
  cases mp.pending.get? ra <;> rfl

/-- The limits only depend on the pending nonces and the tipset. -/
theorem GatewayLimits.congr (h : GatewayLimits acc mp) (hts : mp'.curTs = mp.curTs)
    (hp : ∀ n, mp'.pendingAt acc.key n ≠ none ↔ mp.pendingAt acc.key n ≠ none) :
    GatewayLimits acc mp' where
  noGap n hn i hi hlt := by
    rw [hts] at hi
    exact (hp i).mpr (h.noGap n ((hp n).mp hn) i hi hlt)
  atMost := by
    have hsize : (mp'.msgsOf acc.key).size = (mp.msgsOf acc.key).size := by
      refine Table.size_congr fun n => ?_
      rw [get?_msgsOf, get?_msgsOf]
      exact hp n
    rw [hsize]
    exact h.atMost

/-! ## Pushes -/

/-- A push that fails before `msgSet.add` leaves the messages as they are. -/
theorem pushUntrusted_rejected (h : ¬ Passes env mp m) : Keeps mp (pushUntrusted env mp m).1 := by
  unfold pushUntrusted pushWith
  split
  · exact Keeps.refl mp
  · next hcheck =>
    unfold addTs
    cases hadm : checkBeforeAdd env mp m mp.curTs true with
    | error err => exact Keeps.refl mp
    | ok publish =>
      have hput : env.putSigned m = false ∨ env.putMessage m.message = false := by
        rcases Bool.eq_false_or_eq_true (env.putSigned m) with hs | hs
        · rcases Bool.eq_false_or_eq_true (env.putMessage m.message) with hm | hm
          · exact absurd ⟨hcheck, ⟨publish, hadm⟩, hs, hm⟩ h
          · exact .inr hm
        · exact .inl hs
      have hadd : addLocked env mp m (!true) true = (mp, .error .putMessage) := by
        unfold addLocked
        rw [if_pos hput]
      rw [hadd]
      exact Keeps.refl mp

/-- The rest of `PushUntrusted` after `addLocked`. -/
theorem pushUntrusted_keeps (h : Passes env mp m) :
    Keeps (addLocked env mp m false true).1 (pushUntrusted env mp m).1 := by
  obtain ⟨publish, hadm⟩ := h.admitted
  unfold pushUntrusted pushWith addTs
  rw [h.checked, hadm]
  cases hadd : addLocked env mp m false true with
  | mk mp' r =>
    have hadd' : addLocked env mp m (!true) true = (mp', r) := hadd
    rw [hadd']
    cases r with
    | error err => exact Keeps.refl mp'
    | ok _ =>
      have hloc := addLocal_keeps env mp' m
      dsimp only
      rw [if_pos rfl]
      cases hl : addLocal env mp' m with
      | mk mp'' r =>
        rw [hl] at hloc
        cases r with
        | error err => exact hloc
        | ok _ =>
          dsimp only
          split <;> exact hloc

theorem pushUntrusted_free {ra : KeyAddress} (h : Passes env mp m)
    (hra : resolveToKey env mp.curTs m.message.fromAddr = some ra)
    (hfree : mp.pendingAt ra m.message.nonce = none) :
    Puts mp (pushUntrusted env mp m).1 ra m := by
  obtain ⟨publish, hadm⟩ := h.admitted
  unfold checkBeforeAdd at hadm
  split at hadm
  · cases hadm
  · next act hact =>
    exact (addLocked_free h.signed h.message hra hact hfree true).keeps (pushUntrusted_keeps h)

theorem limits_puts_iff (h : GatewayLimits acc mp) (hput : Puts mp mp' acc.key m)
    (hfree : mp.pendingAt acc.key m.message.nonce = none) :
    GatewayLimits acc mp' ↔ (mp.msgsOf acc.key).size < maxUntrustedActorPendingMessages ∧
      NoGapBelow acc mp m.message.nonce := by
  have hp : ∀ n, mp'.pendingAt acc.key n =
      if n = m.message.nonce then some m else mp.pendingAt acc.key n := by
    intro n
    rw [hput.pendingAt]
    simp only [true_and]
  have hsize : (mp'.msgsOf acc.key).size = (mp.msgsOf acc.key).size + 1 := by
    rw [← Table.size_insert_of_none (v := m) ((get?_msgsOf _ _ _).trans hfree)]
    refine Table.size_congr fun n => ?_
    rw [get?_msgsOf, hp, Table.get?_insert, get?_msgsOf]
  constructor
  · intro h'
    have hmost := h'.atMost
    rw [hsize] at hmost
    refine ⟨hmost, fun i hi hlt => ?_⟩
    have hi' : acc.nonceAt mp'.curTs ≤ i := by rw [hput.curTs]; exact hi
    have := h'.noGap m.message.nonce (by rw [hp, if_pos rfl]; simp) i hi' hlt
    rwa [hp, if_neg (ne_of_lt hlt)] at this
  · rintro ⟨hroom, hbelow⟩
    have hkeep : ∀ i, mp.pendingAt acc.key i ≠ none → mp'.pendingAt acc.key i ≠ none := by
      intro i hi
      rw [hp]
      split
      · simp
      · exact hi
    refine ⟨fun n hn i hi hlt => ?_, by rw [hsize]; exact hroom⟩
    rw [hput.curTs] at hi
    rw [hp] at hn
    split at hn
    · next heq => exact hkeep i (hbelow i hi (heq ▸ hlt))
    · exact hkeep i (h.noGap n hn i hi hlt)

theorem limits_push (tells : Tells env acc) (h : GatewayLimits acc mp) :
    GatewayLimits acc (pushUntrusted env mp m).1 ↔
      PushFits acc mp (.pushUntrusted env tells m) := by
  by_cases hpass : Passes env mp m
  · by_cases hfree : resolveToKey env mp.curTs m.message.fromAddr = some acc.key ∧
        mp.pendingAt acc.key m.message.nonce = none
    · rw [limits_puts_iff h (pushUntrusted_free hpass hfree.1 hfree.2) hfree.2]
      refine ⟨fun hfit _ _ => .inr hfit, fun hfit => ?_⟩
      exact (hfit hpass hfree.1).resolve_left fun hne => hne hfree.2
    · refine ⟨fun _ _ hra => .inl fun hnone => hfree ⟨hra, hnone⟩, fun _ => ?_⟩
      have heff : AddEffect env mp m (pushUntrusted env mp m).1 := pushWith_effect env mp m true
      cases heff with
      | keeps hkeeps =>
        exact GatewayLimits.congr h hkeeps.curTs fun n => by rw [hkeeps.pendingAt]
      | puts hra hput =>
        -- It replaces a pending message, or is one of another sender.
        refine GatewayLimits.congr h hput.curTs fun n => ?_
        rw [hput.pendingAt]
        split
        · next heq =>
          refine ⟨fun _ hnone => hfree ⟨heq.1 ▸ hra, heq.2 ▸ hnone⟩, fun _ => some_ne_none m⟩
        · exact Iff.rfl
  · have hkeeps := pushUntrusted_rejected hpass
    refine ⟨fun _ hp => absurd hp hpass, fun _ => ?_⟩
    exact GatewayLimits.congr h hkeeps.curTs fun n => by rw [hkeeps.pendingAt]

/-! ## Applied blocks -/

/-- Applying blocks only takes messages of the account away, and only such that
the account has used the nonce of. -/
structure Consumed (acc : Account) (mp : Pool) (st : Replay) : Prop where
  empty : st.rmsgs = ∅
  old : ∀ n, st.mp.pendingAt acc.key n ≠ none → mp.pendingAt acc.key n ≠ none
  gone : ∀ n, mp.pendingAt acc.key n ≠ none → st.mp.pendingAt acc.key n = none →
    n < acc.nonceAt st.mp.curTs

variable {st : Replay}

theorem consumed_rmApplied (h : Consumed acc mp st) (addr : Address) (n : Nat)
    (hused : resolveToKey env st.mp.curTs addr = some acc.key → n < acc.nonceAt st.mp.curTs) :
    Consumed acc mp (rmApplied env st (addr, n)) ∧
      (rmApplied env st (addr, n)).mp.curTs = st.mp.curTs := by
  have hst : rmApplied env st (addr, n) = { st with mp := remove env st.mp addr n true } := by
    unfold rmApplied
    rw [h.empty]
    rfl
  have hcur := remove_curTs env st.mp addr n true
  rw [hst]
  refine ⟨⟨h.empty, fun i hi => ?_, fun i hi hnone => ?_⟩, hcur⟩
  · rw [pendingAt_remove] at hi
    split at hi
    · exact absurd rfl hi
    · exact h.old i hi
  · rw [hcur]
    rw [pendingAt_remove] at hnone
    split at hnone
    · next heq => rw [heq.2]; exact hused heq.1
    · exact h.gone i hi hnone

section

variable (tells : Tells env acc) (h : Consumed acc mp st)
include tells h

theorem consumed_applyBlock {ts : TipSet} {b : BlockHeader}
    (hb : b ∈ ts.blks) (hts : st.mp.curTs = ts) :
    Consumed acc mp (applyBlock env st b) ∧ (applyBlock env st b).mp.curTs = ts := by
  unfold applyBlock
  split
  · exact ⟨{ h with }, hts⟩
  · next msgs hmsgs =>
    have hused : ∀ key ∈ appliedNonces msgs, resolveToKey env ts key.1 = some acc.key →
        key.2 < acc.nonceAt ts := fun key hkey hra => tells.used hb hmsgs hkey hra
    generalize appliedNonces msgs = keys at hused
    induction keys generalizing st with
    | nil => exact ⟨h, hts⟩
    | cons key rest ih =>
      obtain ⟨h', hts'⟩ := consumed_rmApplied h key.1 key.2 (by
        rw [hts]; exact hused key mem_cons_self)
      exact ih h' (hts'.trans hts) fun key' hkey' => hused key' (mem_cons_of_mem _ hkey')

theorem consumed_applyTipSet {ts : TipSet} (hmono : acc.nonceAt st.mp.curTs ≤ acc.nonceAt ts) :
    Consumed acc mp (applyTipSet env st ts) ∧ (applyTipSet env st ts).mp.curTs = ts := by
  have hmove : Consumed acc mp { st with mp := { st.mp with curTs := ts } } :=
    ⟨h.empty, h.old, fun n hn hnone => lt_of_lt_of_le (h.gone n hn hnone) hmono⟩
  have hblocks : ∀ blks : List BlockHeader, (∀ b ∈ blks, b ∈ ts.blks) →
      ∀ st : Replay, Consumed acc mp st → st.mp.curTs = ts →
        Consumed acc mp (blks.foldl (applyBlock env) st) ∧
          (blks.foldl (applyBlock env) st).mp.curTs = ts := by
    intro blks
    induction blks with
    | nil => intro _ st h hts; exact ⟨h, hts⟩
    | cons b rest ih =>
      intro hmem st h hts
      obtain ⟨h', hts'⟩ := consumed_applyBlock tells h (hmem b mem_cons_self) hts
      exact ih (fun b' hb' => hmem b' (mem_cons_of_mem _ hb')) _ h' hts'
  exact hblocks ts.blks (fun _ hb => hb) _ hmove rfl

theorem consumed_apply {tss : List TipSet} (htop : onTop st.mp.curTs tss = true) :
    Consumed acc mp (tss.foldl (applyTipSet env) st) ∧
      acc.nonceAt st.mp.curTs ≤ acc.nonceAt (tss.foldl (applyTipSet env) st).mp.curTs := by
  induction tss generalizing st with
  | nil => exact ⟨h, le_refl _⟩
  | cons ts rest ih =>
    unfold onTop at htop
    rw [Bool.and_eq_true, decide_eq_true_eq] at htop
    have hmono := acc.mono st.mp.curTs ts htop.1
    obtain ⟨h', hts'⟩ := consumed_applyTipSet tells h hmono
    obtain ⟨h'', hle⟩ := ih h' (by rw [hts']; exact htop.2)
    rw [hts'] at hle
    exact ⟨h'', hmono.trans hle⟩

end

theorem readdOrder_empty (env : Env) : readdOrder env ∅ = [] := by
  refine eq_nil_iff_forall_not_mem.mpr fun m hm => ?_
  obtain ⟨a, n, h⟩ := mem_readdOrder.mp hm
  cases h

theorem limits_apply (tells : Tells env acc) (h : GatewayLimits acc mp) {tss : List TipSet}
    (htop : onTop mp.curTs tss = true) : GatewayLimits acc (headChange env mp [] tss).1 := by
  have hstart : Consumed acc mp ⟨mp, ∅, false⟩ :=
    ⟨rfl, fun _ hn => hn, fun _ hn hnone => absurd hnone hn⟩
  obtain ⟨hc, hle⟩ := consumed_apply tells hstart htop
  have hmp : (headChange env mp [] tss).1 = (tss.foldl (applyTipSet env) ⟨mp, ∅, false⟩).mp := by
    unfold headChange replayChange
    dsimp only [foldl_nil]
    rw [hc.empty, readdOrder_empty]
    rfl
  rw [hmp]
  refine ⟨fun n hn i hi hlt hnone => ?_, ?_⟩
  · -- a nonce that is missing now was pending, so it is used up
    have hi' := h.noGap n (hc.old n hn) i (hle.trans hi) hlt
    exact Nat.not_lt_of_le hi (hc.gone i hi' hnone)
  · refine le_trans (Table.size_le fun n hn => ?_) h.atMost
    rw [get?_msgsOf] at hn ⊢
    exact hc.old n hn

theorem limits_step {op : GatewayOp acc} (h : GatewayLimits acc mp)
    (hstep : gatewayStep acc mp op = some mp') : GatewayLimits acc mp' ↔ PushFits acc mp op := by
  cases op with
  | pushUntrusted env tells m =>
    obtain rfl := some.inj hstep
    exact limits_push tells h
  | applyBlocks env tells tss =>
    change (if onTop mp.curTs tss then some (headChange env mp [] tss).1 else none) = some mp'
      at hstep
    split at hstep
    · next htop =>
      obtain rfl := some.inj hstep
      exact ⟨fun _ => trivial, fun _ => limits_apply tells h htop⟩
    · cases hstep

end GatewayLemmas

open GatewayLemmas in
/-- Over a run that starts without messages of the account, the limits hold in
every state exactly when every push of the run keeps to them by itself. -/
theorem gatewayLimits_iff_pushesFit {acc : Account} {mp : Pool}
    (hstart : ∀ n, mp.pendingAt acc.key n = none) {ops : List (GatewayOp acc)}
    {states : List Pool} (h : trace (gatewayStep acc) mp ops = some states) :
    (∀ mp' ∈ states, GatewayLimits acc mp') ↔ Guarded (gatewayStep acc) (PushFits acc) mp ops := by
  have hlimits : GatewayLimits acc mp := by
    refine ⟨fun n hn => absurd (hstart n) hn, ?_⟩
    have hsize : (mp.msgsOf acc.key).size = 0 :=
      Table.size_eq_zero_iff.mpr fun n => (get?_msgsOf mp acc.key n).trans (hstart n)
    rw [hsize]
    exact Nat.zero_le _
  have hinv : ∀ (s : Pool) (a : GatewayOp acc) (s' : Pool), True → GatewayLimits acc s →
      PushFits acc s a → gatewayStep acc s a = some s' → True := fun _ _ _ _ _ _ _ => trivial
  exact trace_forall_iff hinv (fun s a s' _ hs hstep => limits_step hs hstep) trivial hlimits h

/-! ## A client of the gateway -/

/-- A funded account that has sent nothing on chain. -/
def newcomer : Account where
  key := payer
  nonceAt _ := 0
  mono _ _ _ := Nat.le_refl 0

def newcomerEnv : Env :=
  calmEnv (fun _ _ => some ⟨0, 1000000000000⟩) (fun _ => []) (fun _ => none)

theorem newcomerEnv_tells : Tells newcomerEnv newcomer where
  nonce _ h := by cases h; rfl
  used _ h hmem _ := by cases h; cases hmem

/-- One push with nonce `n`, then a tipset. -/
def pushThenApply (n : Nat) : List (GatewayOp newcomer) :=
  [.pushUntrusted newcomerEnv newcomerEnv_tells (transfer (.key payer) n),
    .applyBlocks newcomerEnv newcomerEnv_tells [leftTs]]

theorem gatewayLimits_iff_pushesFit_newcomer :
    ∃ states, trace (gatewayStep newcomer) (emptyPool rootTs) (pushThenApply 0) = some states ∧
      ((∀ mp' ∈ states, GatewayLimits newcomer mp') ↔
        Guarded (gatewayStep newcomer) (PushFits newcomer) (emptyPool rootTs)
          (pushThenApply 0)) :=
  ⟨_, rfl, gatewayLimits_iff_pushesFit (fun _ => rfl) rfl⟩

/-- A client of the gateway may start with nonce 5. -/
theorem pushUntrusted_leaves_gap :
    ∃ states, trace (gatewayStep newcomer) (emptyPool rootTs) (pushThenApply 5) = some states ∧
      ∃ mp' ∈ states, ¬ GatewayLimits newcomer mp' := by
  refine ⟨_, rfl, (pushUntrusted newcomerEnv (emptyPool rootTs) (transfer (.key payer) 5)).1,
    by simp, fun h => ?_⟩
  exact h.noGap 5 (by decide) 0 (by decide) (by decide) (by decide)

end OpenDsn.Mpool
