import Mathlib.Data.List.TakeWhile
import OpenDsn.Paych.Requests

/-!
# Where the funds are

The funds of a channel between pending, confirmed, available and reserved. Amounts move
when a task fills requests from the available funds, when a message is sent, and when it is
confirmed or fails.

* `Ledger`: the channels, the messages on their way and the charges fit together;
* `Ledger.filled`, `Ledger.push`, `Ledger.resolve`: what the three kinds of changes keep;
* `funds_conserved`: in every run there is at most one message on its way for a channel,
  its amount is what is available and what was granted, and what is available is not
  negative;
* `createPaych_amount_iff`: the amount that a channel is created with.
-/

namespace OpenDsn.Paych

open Lib Mpool List Option

/-- What a charge counts as a grant on a channel: the amount of a reserving request, at once
if it is filled from the available funds, and with the message it goes into otherwise. -/
def Charge.granted (confirmed : List MsgCid) (id : ChannelId) (c : Charge) : Int :=
  if c.req.opts.reserve then
    match c.source with
    | .available id' => if id' = id then c.req.amt else 0
    | .message id' mcid => if id' = id ∧ mcid ∈ confirmed then c.req.amt else 0
  else 0

/-- What is granted to reserving requests on a channel. -/
def ChannelAccessor.granted (ca : ChannelAccessor) (id : ChannelId) : Int :=
  (ca.charges.map (Charge.granted ca.confirmed id)).sum

/-- A channel of the accessor between two addresses. -/
structure Between (fromAddr toAddr : Address) (ci : ChannelInfo) : Prop where
  direction : ci.direction = .outbound
  control : ci.control = fromAddr
  target : ci.target = toAddr

def ChannelAccessor.Owns (ca : ChannelAccessor) (ci : ChannelInfo) : Prop :=
  Between ca.fromAddr ca.toAddr ci

/-- What a message will grant on a channel once it is confirmed. -/
def Charge.pending (id : ChannelId) (mcid : MsgCid) (c : Charge) : Int :=
  if c.req.opts.reserve ∧ c.source = .message id mcid then c.req.amt else 0

def ChannelAccessor.pendingGrants (ca : ChannelAccessor) (id : ChannelId) (mcid : MsgCid) : Int :=
  (ca.charges.map (Charge.pending id mcid)).sum

/-- The channel that a charge is on. -/
def Source.channelID : Source → ChannelId
  | .available id => id
  | .message id _ => id

namespace ConservationLemmas

open FundsLemmas RequestLemmas Store Charge Table

variable {ca ca' : ChannelAccessor} {id id' : ChannelId} {m : MsgCid} {ci ci' : ChannelInfo}
  {reqs : List FundsReq} {confirmed : List MsgCid} {charged : List FundsReq} {store : Store}

/-! ## Sums of charges -/

/-- The reserving ones of some requests. -/
def reserving (reqs : List FundsReq) : List FundsReq := reqs.filter (·.opts.reserve)

theorem amounts_reserving (reqs : List FundsReq) :
    amounts reqs = amounts (reqs.filter (!·.opts.reserve)) + amounts (reserving reqs) := by
  rw [add_comm, ← amounts_append]
  exact ((filter_append_perm (·.opts.reserve) reqs).symm.map FundsReq.amt).sum_eq

/-- A sum over charges of requests to one source. -/
theorem sum_charges (f : Charge → Int) (g : FundsReq → Int) (source : Source)
    (h : ∀ r, f ⟨r, source⟩ = g r) :
    ((reqs.map (⟨·, source⟩ : FundsReq → Charge)).map f).sum = (reqs.map g).sum := by
  rw [List.map_map]
  exact congrArg List.sum (map_congr_left fun r _ => h r)

theorem sum_reserving :
    (reqs.map fun r => if r.opts.reserve then r.amt else 0).sum = amounts (reserving reqs) := by
  induction reqs with
  | nil => rfl
  | cons r rest ih =>
    simp only [amounts, reserving, map_cons, sum_cons, filter_cons] at ih ⊢
    rw [ih]
    cases r.opts.reserve <;> simp

theorem sum_zero {α : Type} (l : List α) {f : α → Int} (h : ∀ a ∈ l, f a = 0) : (l.map f).sum = 0 :=
  sum_eq_zero (forall_mem_map.mpr h)

/-- A charge does not count on another channel. -/
theorem granted_of_ne {c : Charge} (h : c.source.channelID ≠ id) : c.granted confirmed id = 0 := by
  unfold granted
  cases hsource : c.source with
  | available id' | message id' m =>
    rw [hsource] at h
    simp [show id' ≠ id from h]

theorem granted_available (h : ∀ r ∈ reqs, r.opts.reserve = true) :
    ((reqs.map (⟨·, .available id⟩ : FundsReq → Charge)).map (Charge.granted confirmed id)).sum =
      amounts reqs := by
  rw [sum_charges _ (fun r => if r.opts.reserve then r.amt else 0), sum_reserving,
    reserving, filter_eq_self.mpr h]
  intro r
  simp [granted]

theorem granted_message (hm : m ∉ confirmed) :
    ((reqs.map (⟨·, .message id' m⟩ : FundsReq → Charge)).map
      (Charge.granted confirmed id)).sum = 0 := by
  refine sum_zero _ (forall_mem_map.mpr fun r _ => ?_)
  simp [granted, hm]

theorem pending_message :
    ((reqs.map (⟨·, .message id m⟩ : FundsReq → Charge)).map (Charge.pending id m)).sum =
      amounts (reserving reqs) := by
  rw [sum_charges _ (fun r => if r.opts.reserve then r.amt else 0), sum_reserving]
  intro r
  simp [pending]

/-- Once a message is confirmed, what was pending on it is granted. -/
theorem granted_confirm (hm : m ∉ confirmed) (charges : List Charge) :
    (charges.map (Charge.granted (m :: confirmed) id)).sum =
      (charges.map (Charge.granted confirmed id)).sum +
        (charges.map (Charge.pending id m)).sum := by
  rw [← sum_map_add]
  refine congrArg List.sum (map_congr_left fun c _ => ?_)
  unfold granted pending
  cases c.req.opts.reserve with
  | false => simp
  | true =>
    cases c.source with
    | available id' => simp
    | message id' m' =>
      by_cases hid : id' = id
      · by_cases hmm : m' = m
        · simp [hid, hmm, hm]
        · simp [hid, hmm]
      · simp [hid]

/-! ## The invariant -/

variable (ca id ci) in
/-- The record of a channel and its charges. A channel that is being created has no funds
yet and no other message. -/
structure Books : Prop where
  balanced : ci.amount = ci.availableAmount + ca.granted id
  nonneg : 0 ≤ ci.availableAmount
  pending_nonneg : 0 ≤ ci.pendingAvailableAmount
  creating : ∀ m, ci.createMsg = some m →
    ci.amount = 0 ∧ ci.availableAmount = 0 ∧ ci.addFundsMsg = none
  pending : ∀ m, ci.createMsg = some m ∨ ci.addFundsMsg = some m →
    ca.inFlight.get? m = some id ∧
      ci.pendingAmount = ci.pendingAvailableAmount + ca.pendingGrants id m

/-- The message is the one that the channel waits for. -/
def Awaits (ci : ChannelInfo) (m : MsgCid) : MsgKind → Prop
  | .create => ci.createMsg = some m
  | .addFunds => ci.addFundsMsg = some m

/-- The channels, the messages on their way and the charges fit together. -/
structure Ledger (ca : ChannelAccessor) : Prop where
  books : ∀ id ci, ca.store.channels.get? id = some ci → ca.Owns ci → Books ca id ci
  flight : ∀ m id, ca.inFlight.get? m = some id → m < ca.nextMsg ∧ m ∉ ca.confirmed ∧
    ∃ ci kind, ca.store.channels.get? id = some ci ∧ ca.Owns ci ∧ Awaits ci m kind
  waits : ∀ m w, ca.waits.get? m = some w → ca.inFlight.get? m = some w.channelID ∧
    ∀ ci, ca.store.channels.get? w.channelID = some ci → Awaits ci m w.kind
  channel_lt : ∀ c ∈ ca.charges, c.source.channelID < ca.store.nextUUID
  owner : ∀ c ∈ ca.charges, ∀ id m, c.source = .message id m →
    m < ca.nextMsg ∧ ∀ id', ca.inFlight.get? m = some id' → id' = id
  confirmed_lt : ∀ m ∈ ca.confirmed, m < ca.nextMsg

theorem not_awaits (hcreate : ci.createMsg = none) (hadd : ci.addFundsMsg = none) (m : MsgCid)
    (kind : MsgKind) : ¬ Awaits ci m kind := by
  cases kind with
  | create => exact fun h => nomatch h.symm.trans hcreate
  | addFunds => exact fun h => nomatch h.symm.trans hadd

theorem Books.unique {m' : MsgCid} {kind kind' : MsgKind} (h : Books ca id ci)
    (hm : Awaits ci m kind) (hm' : Awaits ci m' kind') : m = m' := by
  cases kind with
  | create =>
    cases kind' with
    | create => exact mem_unique hm hm'
    | addFunds => exact nomatch hm'.symm.trans (h.creating m hm).2.2
  | addFunds =>
    cases kind' with
    | create => exact nomatch hm.symm.trans (h.creating m' hm').2.2
    | addFunds => exact mem_unique hm hm'

theorem Books.createMsg_none (h : Books ca id ci) (hadd : ci.addFundsMsg = some m) :
    ci.createMsg = none := by
  cases hcreate : ci.createMsg with
  | none => rfl
  | some m' => exact nomatch hadd.symm.trans (h.creating m' hcreate).2.2

/-- At most one message is on its way for a channel. -/
theorem Ledger.unique {m' : MsgCid} (h : Ledger ca) (hm : ca.inFlight.get? m = some id)
    (hm' : ca.inFlight.get? m' = some id) : m = m' := by
  obtain ⟨-, -, ci, kind, hget, howns, hawaits⟩ := h.flight m id hm
  obtain ⟨-, -, ci', kind', hget', -, hawaits'⟩ := h.flight m' id hm'
  obtain rfl : ci = ci' := mem_unique hget hget'
  exact (h.books id ci hget howns).unique hawaits hawaits'

/-- No message is on its way for a channel that waits for none. -/
theorem Ledger.not_inFlight (h : Ledger ca) (hget : ca.store.channels.get? id = some ci)
    (hcreate : ci.createMsg = none) (hadd : ci.addFundsMsg = none) (m : MsgCid) :
    ca.inFlight.get? m ≠ some id := by
  intro hm
  obtain ⟨-, -, ci', kind, hget', -, hawaits⟩ := h.flight m id hm
  obtain rfl : ci = ci' := mem_unique hget hget'
  exact not_awaits hcreate hadd m kind hawaits

variable (ca id ci) in
/-- The record of a channel that no message is on its way for. -/
structure Settled : Prop where
  balanced : ci.amount = ci.availableAmount + ca.granted id
  nonneg : 0 ≤ ci.availableAmount
  pending_nonneg : 0 ≤ ci.pendingAvailableAmount
  createMsg : ci.createMsg = none
  addFundsMsg : ci.addFundsMsg = none

theorem Settled.books (h : Settled ca id ci) : Books ca id ci where
  __ := h
  creating m hm := absurd hm (not_awaits h.createMsg h.addFundsMsg m .create)
  pending m hm := by
    rcases hm with hm | hm
    · exact absurd hm (not_awaits h.createMsg h.addFundsMsg m .create)
    · exact absurd hm (not_awaits h.createMsg h.addFundsMsg m .addFunds)

/-- The books of a channel whose charges and messages are not touched. -/
theorem Books.congr (h : Books ca id ci) (hgranted : ca'.granted id = ca.granted id)
    (hpending : ∀ m, ca.inFlight.get? m = some id → ca'.inFlight.get? m = some id ∧
      ca'.pendingGrants id m = ca.pendingGrants id m) : Books ca' id ci where
  __ := h
  balanced := hgranted ▸ h.balanced
  pending m hm := by
    obtain ⟨hflight, heq⟩ := h.pending m hm
    obtain ⟨hflight', hgrants⟩ := hpending m hflight
    exact ⟨hflight', hgrants ▸ heq⟩

theorem owns_congr (h : ca'.fromAddr = ca.fromAddr ∧ ca'.toAddr = ca.toAddr) :
    ca'.Owns ci ↔ ca.Owns ci := by
  unfold ChannelAccessor.Owns
  rw [h.1, h.2]

/-! ## Changes to one channel -/

/-- Nothing but the channel `id`, its charges and its messages changes. -/
structure OnlyTouches (id : ChannelId) (ca ca' : ChannelAccessor) : Prop where
  addrs : ca'.fromAddr = ca.fromAddr ∧ ca'.toAddr = ca.toAddr
  channels : ∀ id', id' ≠ id → ca'.store.channels.get? id' = ca.store.channels.get? id'
  charges : ∃ charged, ca'.charges = ca.charges ++ charged ∧
    ∀ c ∈ charged, c.source.channelID = id ∧
      ∀ m, c.source = .message id m → ca.nextMsg ≤ m ∧ m < ca'.nextMsg
  confirmed : ca.confirmed ⊆ ca'.confirmed ∧
    ∀ m ∈ ca'.confirmed, m ∈ ca.confirmed ∨ ca.inFlight.get? m = some id
  flight : ∀ m id', id' ≠ id → (ca'.inFlight.get? m = some id' ↔ ca.inFlight.get? m = some id')
  flight_new : ∀ m, ca'.inFlight.get? m = some id → ca.inFlight.get? m = some id ∨ ca.nextMsg ≤ m
  waits : ∀ m w, w.channelID ≠ id → ca'.waits.get? m = some w → ca.waits.get? m = some w
  nextMsg : ca.nextMsg ≤ ca'.nextMsg
  nextUUID : ca.store.nextUUID ≤ ca'.store.nextUUID

namespace OnlyTouches

section

variable (h : OnlyTouches id ca ca')
include h

/-- Charges on `id`, and messages of it that are confirmed, do not count on another
channel. -/
theorem granted_ne (hledger : Ledger ca) (hne : id' ≠ id) : ca'.granted id' = ca.granted id' := by
  obtain ⟨charged, hcharges, hcharged⟩ := h.charges
  have hnew : (charged.map (granted ca'.confirmed id')).sum = 0 :=
    sum_zero _ fun c hc => granted_of_ne ((hcharged c hc).1 ▸ hne.symm)
  have hold : ca.charges.map (granted ca'.confirmed id') =
      ca.charges.map (granted ca.confirmed id') := by
    refine map_congr_left fun c hc => ?_
    unfold granted
    cases hsource : c.source with
    | available id₁ => rfl
    | message id₁ m =>
      have hiff : id₁ = id' ∧ m ∈ ca'.confirmed ↔ id₁ = id' ∧ m ∈ ca.confirmed := by
        refine and_congr_right fun heq => ⟨fun hm => ?_, fun hm => h.confirmed.1 hm⟩
        refine (h.confirmed.2 m hm).resolve_right fun hflight => hne ?_
        rw [← heq, (hledger.owner c hc id₁ m hsource).2 id hflight]
      simp only [hiff]
  unfold ChannelAccessor.granted
  rw [hcharges, map_append, sum_append, hnew, add_zero, hold]

theorem pendingGrants_ne (hne : id' ≠ id) (m : MsgCid) :
    ca'.pendingGrants id' m = ca.pendingGrants id' m := by
  obtain ⟨charged, hcharges, hcharged⟩ := h.charges
  unfold ChannelAccessor.pendingGrants
  rw [hcharges, map_append, sum_append, sum_zero charged, add_zero]
  intro c hc
  refine if_neg fun hand => hne ?_
  have hid := (hcharged c hc).1
  rw [hand.2] at hid
  exact hid

/-- A message that a charge went into stays with its channel. -/
theorem owner (hledger : Ledger ca) {c : Charge}
    (hc : c ∈ ca'.charges) {id₁ : ChannelId} (hsource : c.source = .message id₁ m) :
    m < ca'.nextMsg ∧ ∀ id', ca'.inFlight.get? m = some id' → id' = id₁ := by
  obtain ⟨charged, hcharges, hcharged⟩ := h.charges
  rw [hcharges] at hc
  rcases mem_append.mp hc with hc | hc
  · obtain ⟨hlt, howner⟩ := hledger.owner c hc id₁ m hsource
    refine ⟨hlt.trans_le h.nextMsg, fun id' hm => ?_⟩
    by_cases hne : id' = id
    · obtain rfl := hne
      exact howner id' ((h.flight_new m hm).resolve_right (Nat.not_le_of_lt hlt))
    · exact howner id' ((h.flight m id' hne).mp hm)
  · -- a new charge is on `id`, and its message was not on its way before
    obtain ⟨hchannel, hfresh⟩ := hcharged c hc
    obtain rfl : id₁ = id := by rw [hsource] at hchannel; exact hchannel
    obtain ⟨hle, hlt⟩ := hfresh m hsource
    refine ⟨hlt, fun id' hm => not_not.mp fun hne => ?_⟩
    exact Nat.not_lt_of_le hle (hledger.flight m id' ((h.flight m id' hne).mp hm)).1

/-- The messages of the other channels are as before. -/
theorem flight_ne (hledger : Ledger ca) (hne : id' ≠ id) (hm : ca'.inFlight.get? m = some id') :
    m < ca'.nextMsg ∧ m ∉ ca'.confirmed ∧
      ∃ ci kind, ca'.store.channels.get? id' = some ci ∧ ca'.Owns ci ∧ Awaits ci m kind := by
  have hm₀ := (h.flight m id' hne).mp hm
  obtain ⟨hlt, hconf, ci, kind, hget, hci, hawaits⟩ := hledger.flight m id' hm₀
  refine ⟨hlt.trans_le h.nextMsg, fun hmem => ?_, ci, kind, (h.channels id' hne).trans hget,
    (owns_congr h.addrs).mpr hci, hawaits⟩
  rcases h.confirmed.2 m hmem with hold | hold
  · exact hconf hold
  · exact hne (mem_unique hm₀ hold)

/-- It is enough to look at the channel that changes. -/
theorem ledger (hledger : Ledger ca) (hid : id < ca'.store.nextUUID)
    (hbooks : ∀ ci, ca'.store.channels.get? id = some ci → ca'.Owns ci → Books ca' id ci)
    (hflight : ∀ m, ca'.inFlight.get? m = some id → m < ca'.nextMsg ∧ m ∉ ca'.confirmed ∧
      ∃ ci kind, ca'.store.channels.get? id = some ci ∧ ca'.Owns ci ∧ Awaits ci m kind)
    (hwaits : ∀ m w, w.channelID = id → ca'.waits.get? m = some w →
      ca'.inFlight.get? m = some id ∧
        ∀ ci, ca'.store.channels.get? id = some ci → Awaits ci m w.kind) :
    Ledger ca' where
  books id' ci hget hci := by
    by_cases hne : id' = id
    · obtain rfl := hne
      exact hbooks ci hget hci
    · rw [h.channels id' hne] at hget
      exact (hledger.books id' ci hget ((owns_congr h.addrs).mp hci)).congr
        (h.granted_ne hledger hne)
        fun m hm => ⟨(h.flight m id' hne).mpr hm, h.pendingGrants_ne hne m⟩
  flight m id' hm := by
    by_cases hne : id' = id
    · obtain rfl := hne
      exact hflight m hm
    · exact h.flight_ne hledger hne hm
  waits m w hw := by
    by_cases hne : w.channelID = id
    · obtain ⟨hm, hawaits⟩ := hwaits m w hne hw
      exact ⟨hne ▸ hm, fun ci hget => hawaits ci (hne ▸ hget)⟩
    · obtain ⟨hm, hawaits⟩ := hledger.waits m w (h.waits m w hne hw)
      refine ⟨(h.flight m _ hne).mpr hm, fun ci hget => hawaits ci ?_⟩
      rwa [h.channels _ hne] at hget
  channel_lt c hc := by
    obtain ⟨charged, hcharges, hcharged⟩ := h.charges
    rw [hcharges] at hc
    rcases mem_append.mp hc with hc | hc
    · exact (hledger.channel_lt c hc).trans_le h.nextUUID
    · rw [(hcharged c hc).1]
      exact hid
  owner c hc id₁ m hsource := h.owner hledger hc hsource
  confirmed_lt m hm := by
    rcases h.confirmed.2 m hm with hold | hold
    · exact (hledger.confirmed_lt m hold).trans_le h.nextMsg
    · exact (hledger.flight m id hold).1.trans_le h.nextMsg

end

end OnlyTouches

/-! ## Filling requests -/

theorem get?_filled_self (hget : ca.store.channels.get? id = some ci) (avail : Int) (f : Filling) :
    (ca.filled id avail f).store.channels.get? id =
      some { ci with availableAmount := ci.availableAmount - avail + (avail - f.used) } :=
  get?_mutate_self (get?_mutate_self hget _) _

theorem filled_touches (ca : ChannelAccessor) (id : ChannelId) (avail : Int) (f : Filling) :
    OnlyTouches id ca (ca.filled id avail f) where
  addrs := ⟨rfl, rfl⟩
  channels _ hne := (get?_mutate_of_ne hne).trans (get?_mutate_of_ne hne)
  charges := ⟨_, rfl, fun c hc => by
    obtain ⟨r, -, rfl⟩ := mem_map.mp hc
    exact ⟨rfl, fun m hm => nomatch hm⟩⟩
  confirmed := ⟨List.Subset.refl _, fun _ hm => .inl hm⟩
  flight _ _ _ := Iff.rfl
  flight_new _ hm := .inl hm
  waits _ _ _ hw := hw
  nextMsg := le_refl _
  nextUUID := by
    show _ ≤ ((ca.store.mutate id _).mutate id _).nextUUID
    rw [nextUUID_mutate, nextUUID_mutate]

/-- Filled requests move funds from available to granted. -/
theorem Ledger.filled {f : Filling} (h : Ledger ca) (avail : Int)
    (hget : ca.store.channels.get? id = some ci) (hcreate : ci.createMsg = none)
    (hadd : ci.addFundsMsg = none) (hused : f.used = amounts (filledReqs f.answers))
    (hreserve : ∀ r ∈ filledReqs f.answers, r.opts.reserve = true)
    (hle : f.used ≤ ci.availableAmount) : Ledger (ca.filled id avail f) := by
  have htouches := filled_touches ca id avail f
  have hnone := h.not_inFlight hget hcreate hadd
  refine htouches.ledger h ((lt_nextUUID hget).trans_le htouches.nextUUID) ?_
    (fun m hm => absurd hm (hnone m))
    (fun m w hw hm => absurd (hw ▸ (h.waits m w hm).1) (hnone m))
  intro ci' hget' howns
  rw [get?_filled_self hget] at hget'
  cases hget'
  have hbooks := h.books id ci hget { howns with }
  refine Settled.books ⟨?_, ?_, hbooks.pending_nonneg, hcreate, hadd⟩
  · show ci.amount = ci.availableAmount - avail + (avail - f.used) +
      ((ca.charges ++ _).map (granted ca.confirmed id)).sum
    rw [map_append, sum_append, granted_available hreserve, ← hused, hbooks.balanced]
    show _ = _ + (ca.granted id + _)
    omega
  · show 0 ≤ ci.availableAmount - avail + (avail - f.used)
    omega

/-! ## Sending messages -/

variable (ca id) in
/-- The record of a channel that message `m` was just sent for. -/
structure Sent (kind : MsgKind) (ci : ChannelInfo) (charged : List FundsReq) : Prop where
  owns : ca.Owns ci
  balanced : ci.amount = ci.availableAmount + ca.granted id
  nonneg : 0 ≤ ci.availableAmount
  pending_nonneg : 0 ≤ ci.pendingAvailableAmount
  pending : ci.pendingAmount = ci.pendingAvailableAmount + amounts (reserving charged)
  creating : ∀ m, ci.createMsg = some m →
    ci.amount = 0 ∧ ci.availableAmount = 0 ∧ ci.addFundsMsg = none
  awaits : Awaits ci ca.nextMsg kind
  only : ∀ m kind', Awaits ci m kind' → m = ca.nextMsg

theorem push_touches {kind : MsgKind} (h : Ledger ca)
    (hchannels : ∀ id', id' ≠ id → store.channels.get? id' = ca.store.channels.get? id')
    (hnext : ca.store.nextUUID ≤ store.nextUUID) :
    OnlyTouches id ca (ca.push kind id store charged) where
  addrs := ⟨rfl, rfl⟩
  channels := hchannels
  charges := ⟨_, rfl, fun c hc => by
    obtain ⟨r, -, rfl⟩ := mem_map.mp hc
    refine ⟨rfl, fun m hm => ?_⟩
    cases hm
    exact ⟨le_refl _, Nat.lt_succ_self _⟩⟩
  confirmed := ⟨List.Subset.refl _, fun _ hm => .inl hm⟩
  flight m id' hne := by
    show (ca.inFlight.insert ca.nextMsg id).get? m = some id' ↔ _
    rw [get?_insert]
    split
    · next heq =>
      refine ⟨fun heq' => absurd (some.inj heq').symm hne, fun hm => ?_⟩
      exact absurd (h.flight m id' hm).1 (heq ▸ lt_irrefl _)
    · rfl
  flight_new m hm := by
    rcases get?_insert_cases hm with ⟨heq, -⟩ | ⟨-, hm⟩
    · exact .inr heq.ge
    · exact .inl hm
  waits m w hne hw := by
    rcases get?_insert_cases hw with ⟨-, rfl⟩ | ⟨-, hw⟩
    · exact absurd rfl hne
    · exact hw
  nextMsg := Nat.le_succ _
  nextUUID := hnext

/-- A message is sent for a channel that there was none on its way for. -/
theorem Ledger.push {kind : MsgKind} (h : Ledger ca) (hchannels : ∀ id', store.channels.get? id' =
      if id' = id then some ci else ca.store.channels.get? id')
    (hnext : ca.store.nextUUID ≤ store.nextUUID) (hnone : ∀ m, ca.inFlight.get? m ≠ some id)
    (hsent : Sent ca id kind ci charged) : Ledger (ca.push kind id store charged) := by
  have htouches : OnlyTouches id ca (ca.push kind id store charged) :=
    push_touches h (fun id' hne => by rw [hchannels, if_neg hne]) hnext
  have hget : (ca.push kind id store charged).store.channels.get? id = some ci := by
    show store.channels.get? id = _
    rw [hchannels, if_pos rfl]
  have hconf : ca.nextMsg ∉ ca.confirmed := fun hm => lt_irrefl _ (h.confirmed_lt _ hm)
  have hflight : (ca.push kind id store charged).inFlight.get? ca.nextMsg = some id :=
    get?_insert_self
  have hfresh : (ca.charges.map (pending id ca.nextMsg)).sum = 0 :=
    sum_zero _ fun c hc => if_neg fun hand =>
      lt_irrefl _ (h.owner c hc id ca.nextMsg hand.2).1
  refine htouches.ledger h (lt_nextUUID hget) ?_ (fun m hm => ?_) (fun m w hid hw => ?_)
  · intro ci' hget' _
    obtain rfl : ci = ci' := mem_unique hget hget'
    refine { hsent with balanced := ?_, pending := fun m hm => ?_ }
    · show ci.amount = _ + ((ca.charges ++ _).map (granted ca.confirmed id)).sum
      rw [map_append, sum_append, granted_message hconf, add_zero]
      exact hsent.balanced
    · obtain rfl : m = ca.nextMsg := by
        rcases hm with hm | hm
        · exact hsent.only m .create hm
        · exact hsent.only m .addFunds hm
      refine ⟨hflight, ?_⟩
      show _ = _ + ((ca.charges ++ _).map (pending id ca.nextMsg)).sum
      rw [map_append, sum_append, hfresh, pending_message, zero_add]
      exact hsent.pending
  · rcases get?_insert_cases hm with ⟨rfl, -⟩ | ⟨-, hm⟩
    · exact ⟨Nat.lt_succ_self _, hconf, ci, kind, hget, hsent.owns, hsent.awaits⟩
    · exact absurd hm (hnone m)
  · rcases get?_insert_cases hw with ⟨rfl, rfl⟩ | ⟨-, hw⟩
    · refine ⟨hflight, fun ci' hget' => ?_⟩
      obtain rfl : ci = ci' := mem_unique hget hget'
      exact hsent.awaits
    · exact absurd (hid ▸ (h.waits m w hw).1) (hnone m)

/-! ## Results of messages -/

/-- The result of a message is known: it is no longer on its way, and may be confirmed. -/
structure Resolves (m : MsgCid) (id : ChannelId) (ca ca' : ChannelAccessor) : Prop where
  addrs : ca'.fromAddr = ca.fromAddr ∧ ca'.toAddr = ca.toAddr
  channels : ∀ id', id' ≠ id → ca'.store.channels.get? id' = ca.store.channels.get? id'
  charges : ca'.charges = ca.charges
  confirmed : ca'.confirmed = ca.confirmed ∨ ca'.confirmed = m :: ca.confirmed
  flight : ca'.inFlight = ca.inFlight.erase m
  waits : ca'.waits = ca.waits.erase m
  nextMsg : ca'.nextMsg = ca.nextMsg
  nextUUID : ca'.store.nextUUID = ca.store.nextUUID

theorem Resolves.touches (h : Resolves m id ca ca') (hm : ca.inFlight.get? m = some id) :
    OnlyTouches id ca ca' where
  __ := h
  charges := ⟨[], by rw [h.charges, append_nil], forall_mem_nil _⟩
  confirmed := by
    rcases h.confirmed with heq | heq <;> rw [heq]
    · exact ⟨List.Subset.refl _, fun _ hm' => .inl hm'⟩
    · exact ⟨subset_cons_self _ _, forall_mem_cons.mpr ⟨.inr hm, fun _ => .inl⟩⟩
  flight m' id' hne := by
    rw [h.flight, get?_erase]
    split
    · next heq =>
      refine ⟨(nomatch ·), fun hm' => absurd ?_ hne⟩
      exact some.inj ((heq ▸ hm').symm.trans hm)
    · rfl
  flight_new m' hm' := by
    rw [h.flight, get?_erase_eq_some] at hm'
    exact .inl hm'.2
  waits m' w _ hw := by
    rw [h.waits, get?_erase_eq_some] at hw
    exact hw.2
  nextMsg := h.nextMsg.ge
  nextUUID := h.nextUUID.ge

theorem Ledger.resolve (hledger : Ledger ca) (h : Resolves m id ca ca')
    (hm : ca.inFlight.get? m = some id)
    (hsettled : ∀ ci, ca'.store.channels.get? id = some ci → ca'.Owns ci → Settled ca' id ci) :
    Ledger ca' := by
  -- The message was the only one of its channel.
  have hnone : ∀ m', ca'.inFlight.get? m' ≠ some id := fun m' hm' => by
    rw [h.flight, get?_erase_eq_some] at hm'
    exact hm'.1 (hledger.unique hm'.2 hm)
  obtain ⟨-, -, ci, -, hget, -⟩ := hledger.flight m id hm
  refine (h.touches hm).ledger hledger (h.nextUUID ▸ lt_nextUUID hget)
    (fun ci hget howns => (hsettled ci hget howns).books) (fun m' hm' => absurd hm' (hnone m'))
    (fun m' w hid hw => ?_)
  rw [h.waits, get?_erase_eq_some] at hw
  obtain ⟨hne, hw⟩ := hw
  exact absurd (hledger.unique (hid ▸ (hledger.waits m' w hw).1) hm) hne

/-- No channel, charge or message changes, but a wait may be over. -/
structure SameFunds (ca ca' : ChannelAccessor) : Prop where
  addrs : ca'.fromAddr = ca.fromAddr ∧ ca'.toAddr = ca.toAddr
  channels : ca'.store.channels = ca.store.channels
  nextUUID : ca'.store.nextUUID = ca.store.nextUUID
  charges : ca'.charges = ca.charges
  confirmed : ca'.confirmed = ca.confirmed
  flight : ca'.inFlight = ca.inFlight
  waits : ∀ m w, ca'.waits.get? m = some w → ca.waits.get? m = some w
  nextMsg : ca'.nextMsg = ca.nextMsg

/-- The requests, the listeners and the answers are not about funds. -/
theorem sameFunds_requests {queue : List FundsReq} {nextReq : Nat} {listeners : List MsgCid}
    {waited : Table MsgCid (Option WaitErr)} (answers : List Answer) :
    SameFunds ca { ca with
      fundsReqQueue := queue
      nextReq := nextReq
      msgListeners := listeners
      waited := waited
      answers := answers } :=
  ⟨⟨rfl, rfl⟩, rfl, rfl, rfl, rfl, rfl, fun _ _ h => h, rfl⟩

theorem SameFunds.granted (h : SameFunds ca ca') (id : ChannelId) :
    ca'.granted id = ca.granted id := by
  unfold ChannelAccessor.granted
  rw [h.charges, h.confirmed]

theorem SameFunds.ledger (h : SameFunds ca ca') (hledger : Ledger ca) : Ledger ca' := by
  refine ⟨fun id ci hget hci => ?_, fun m id hm => ?_, fun m w hw => ?_, ?_, ?_, ?_⟩
  · rw [h.channels] at hget
    refine (hledger.books id ci hget ((owns_congr h.addrs).mp hci)).congr (h.granted id)
      fun m hm => ?_
    refine ⟨h.flight ▸ hm, ?_⟩
    unfold ChannelAccessor.pendingGrants
    rw [h.charges]
  · rw [h.flight] at hm
    obtain ⟨hlt, hconf, ci, kind, hget, hci, hawaits⟩ := hledger.flight m id hm
    exact ⟨h.nextMsg ▸ hlt, h.confirmed ▸ hconf, ci, kind, h.channels ▸ hget,
      (owns_congr h.addrs).mpr hci, hawaits⟩
  · rw [h.flight, h.channels]
    exact hledger.waits m w (h.waits m w hw)
  · rw [h.charges, h.nextUUID]
    exact hledger.channel_lt
  · rw [h.charges, h.nextMsg, h.flight]
    exact hledger.owner
  · rw [h.confirmed, h.nextMsg]
    exact hledger.confirmed_lt

variable {w : Wait} {addr : Address}

theorem granted_waitMsg_confirmed (hm : m ∉ ca.confirmed) :
    (waitMsg ca m w (.confirmed addr)).granted id = ca.granted id + ca.pendingGrants id m :=
  granted_confirm hm ca.charges

theorem get?_waitedStore_of_ne (out : WaitOutcome) (hne : id' ≠ w.channelID) :
    (waitedStore store w out).channels.get? id' = store.channels.get? id' := by
  unfold waitedStore
  cases out <;> cases w.kind <;>
    first
      | exact get?_mutate_of_ne hne
      | exact (get?_remove id').trans (if_neg hne)
      | rfl

theorem waitMsg_resolves {out : WaitOutcome}
    (hflight : (waitMsg ca m w out).inFlight = ca.inFlight.erase m)
    (hconf : (waitMsg ca m w out).confirmed = ca.confirmed ∨
      (waitMsg ca m w out).confirmed = m :: ca.confirmed) :
    Resolves m w.channelID ca (waitMsg ca m w out) where
  addrs := ⟨rfl, rfl⟩
  channels _ hne := get?_waitedStore_of_ne out hne
  charges := rfl
  confirmed := hconf
  flight := hflight
  waits := rfl
  nextMsg := rfl
  nextUUID := by
    show (waitedStore _ w out).nextUUID = _
    unfold waitedStore
    cases out <;> cases w.kind <;> first | exact nextUUID_mutate _ | rfl

theorem waitMsg_same {out : WaitOutcome} (h : out = .failed ∨ out = .canceled) :
    SameFunds ca (waitMsg ca m w out) := by
  have hwaits : ∀ m' w', (ca.waits.erase m).get? m' = some w' → ca.waits.get? m' = some w' :=
    fun m' w' hw' => (get?_erase_eq_some.mp hw').2
  rcases h with rfl | rfl <;> exact ⟨⟨rfl, rfl⟩, rfl, rfl, rfl, rfl, rfl, hwaits, rfl⟩

/-- A create message that is confirmed: the pending funds are the funds of the channel. -/
theorem Books.created (h : Books ca id ci)
    (hcreate : ci.createMsg = some m) (hm : m ∉ ca.confirmed) :
    Settled (waitMsg ca m w (.confirmed addr)) id (ci.created addr) := by
  obtain ⟨hamount, havailable, hadd⟩ := h.creating m hcreate
  have hgranted := h.balanced
  have hpending := (h.pending m (.inl hcreate)).2
  refine ⟨?_, h.pending_nonneg, le_refl 0, rfl, hadd⟩
  rw [granted_waitMsg_confirmed hm]
  show ci.pendingAmount = ci.pendingAvailableAmount + _
  omega

/-- An add-funds message that is confirmed. -/
theorem Books.fundsAdded (h : Books ca id ci)
    (hadd : ci.addFundsMsg = some m) (hm : m ∉ ca.confirmed) :
    Settled (waitMsg ca m w (.confirmed addr)) id ci.fundsAdded := by
  have hgranted := h.balanced
  have hpending := (h.pending m (.inr hadd)).2
  have hnonneg := h.nonneg
  have hpending_nonneg := h.pending_nonneg
  refine ⟨?_, ?_, le_refl 0, ?_, rfl⟩
  · rw [granted_waitMsg_confirmed hm]
    show ci.amount + ci.pendingAmount = ci.availableAmount + ci.pendingAvailableAmount + _
    omega
  · show 0 ≤ ci.availableAmount + ci.pendingAvailableAmount
    omega
  · exact h.createMsg_none hadd

theorem Books.fundsDropped (h : Books ca id ci) (hadd : ci.addFundsMsg = some m) :
    Settled (waitMsg ca m w .exitCode) id ci.fundsDropped :=
  ⟨h.balanced, h.nonneg, le_refl 0, h.createMsg_none hadd, rfl⟩

theorem Ledger.waitMsg (h : Ledger ca) (hw : ca.waits.get? m = some w)
    (out : WaitOutcome) : Ledger (waitMsg ca m w out) := by
  obtain ⟨hm, hawaits⟩ := h.waits m w hw
  obtain ⟨-, hconf, ci, -, hget, howns, -⟩ := h.flight m w.channelID hm
  have hbooks := h.books w.channelID ci hget howns
  have hkind := hawaits ci hget
  obtain ⟨kind, id⟩ := w
  cases out with
  | confirmed addr =>
    refine h.resolve (waitMsg_resolves rfl (.inr rfl)) hm fun ci' hget' _ => ?_
    cases kind with
    | create =>
      obtain rfl : _ = ci' := mem_unique (get?_mutate_self hget _) hget'
      exact hbooks.created hkind hconf
    | addFunds =>
      obtain rfl : _ = ci' := mem_unique (get?_mutate_self hget _) hget'
      exact hbooks.fundsAdded hkind hconf
  | exitCode =>
    refine h.resolve (waitMsg_resolves rfl (.inl rfl)) hm fun ci' hget' _ => ?_
    cases kind with
    | create => exact nomatch ((get?_remove id).trans (if_pos rfl)).symm.trans hget'
    | addFunds =>
      obtain rfl : _ = ci' := mem_unique (get?_mutate_self hget _) hget'
      exact hbooks.fundsDropped hkind
  | failed => exact (waitMsg_same (.inl rfl)).ledger h
  | canceled => exact (waitMsg_same (.inr rfl)).ledger h

/-! ## Tasks -/

variable {env : QueueEnv}

/-- What a task relies on: nobody cancels, the requests are different, have positive amounts,
and those off chain reserve. -/
structure TaskReqs (env : QueueEnv) (reqs : List FundsReq) : Prop where
  active : AllActive env.active
  nodup : reqs.Nodup
  pos : ∀ r ∈ reqs, 0 < r.amt
  reserve : ∀ r ∈ reqs, r.opts.offChain = true → r.opts.reserve = true

theorem amounts_nonneg (h : ∀ r ∈ reqs, 0 < r.amt) : 0 ≤ amounts reqs :=
  sum_nonneg (forall_mem_map.mpr fun r hr => (h r hr).le)

theorem amounts_rest {first : List FundsReq} (rest : List FundsReq)
    (h : ∀ r ∈ first, r.opts.reserve = true) :
    amounts (first ++ rest) - amounts first =
      amounts ((first ++ rest).filter (!·.opts.reserve)) + amounts (reserving rest) := by
  -- Requests that all reserve do not count as available.
  have hnil : first.filter (!·.opts.reserve) = [] :=
    filter_eq_nil_iff.mpr fun r hr => by simp [h r hr]
  rw [filter_append, hnil, nil_append, amounts_append, ← amounts_reserving, add_sub_cancel_left]

theorem filter_notMem_take {α : Type} [DecidableEq α] {l : List α} (h : l.Nodup) (n : Nat) :
    (l.filter fun a => a ∉ l.take n) = l.drop n := by
  have hnodup : (l.take n ++ l.drop n).Nodup := by rwa [take_append_drop]
  obtain ⟨-, -, hdisjoint⟩ := nodup_append'.mp hnodup
  have htake : ((l.take n).filter fun a => a ∉ l.take n) = [] :=
    filter_eq_nil_iff.mpr fun a ha => by simpa using ha
  have hdrop : ((l.drop n).filter fun a => a ∉ l.take n) = l.drop n :=
    filter_eq_self.mpr fun a ha => decide_eq_true fun hmem => hdisjoint hmem ha
  calc (l.filter fun a => a ∉ l.take n)
      = (l.take n ++ l.drop n).filter (fun a => a ∉ l.take n) := by rw [take_append_drop]
    _ = l.drop n := by rw [filter_append, htake, hdrop, nil_append]

namespace TaskReqs

section

variable (h : TaskReqs env reqs)
include h

theorem sums : sumReqs env.active reqs =
    ⟨amounts reqs, amounts (reqs.filter (!·.opts.reserve))⟩ := sumReqs_of_active h.active reqs

theorem avail_nonneg : 0 ≤ (sumReqs env.active reqs).avail := by
  rw [h.sums]
  exact amounts_nonneg fun r hr => h.pos r (mem_of_mem_filter hr)

theorem avail_le : (sumReqs env.active reqs).avail ≤ (sumReqs env.active reqs).amt := by
  have hreserving : 0 ≤ amounts (reserving reqs) :=
    amounts_nonneg fun r hr => h.pos r (mem_of_mem_filter hr)
  rw [h.sums]
  show amounts (reqs.filter (!·.opts.reserve)) ≤ amounts reqs
  rw [amounts_reserving reqs]
  omega

/-- The amount of a create message is what will be available and what is reserved. -/
theorem create_amount (fromAddr toAddr : Address) : (sumReqs env.active reqs).amt -
        (failOffChainNoChannel env.active fromAddr toAddr reqs).freed =
      (sumReqs env.active reqs).avail + amounts (reserving (toCreate env.active reqs)) := by
  have hcreate : toCreate env.active reqs = reqs.dropWhile (·.opts.offChain) :=
    filter_eq_self.mpr fun r _ => h.active .sum r
  have hfirst : ∀ r ∈ reqs.takeWhile (·.opts.offChain), r.opts.reserve = true := fun r hr =>
    h.reserve r ((takeWhile_sublist _).subset hr)
      (mem_takeWhile_imp (p := fun r : FundsReq => r.opts.offChain) hr)
  have hrest := amounts_rest (reqs.dropWhile (·.opts.offChain)) hfirst
  rw [takeWhile_append_dropWhile] at hrest
  rw [h.sums, failOffChainNoChannel_freed, hcreate]
  exact hrest

end

variable (ci) in
/-- What goes into an add-funds message is what `completeAmount` leaves. -/
theorem toAdd_eq (h : TaskReqs env reqs) (avail : Int) :
    toAdd env.active reqs (completeAmount env.active avail ci reqs).answers =
      reqs.drop (completeAmount env.active avail ci reqs).next := by
  have htook := completeAmount_took h.active avail ci reqs
  have hfilter : reqs.filter (env.active .sum) = reqs :=
    filter_eq_self.mpr fun r _ => h.active .sum r
  unfold toAdd
  rw [hfilter, htook.answers]
  exact filter_notMem_take h.nodup _

variable (ci) in
/-- The amount of an add-funds message is what will be available and what is reserved. -/
theorem add_amount (h : TaskReqs env reqs) (avail : Int) :
    (sumReqs env.active reqs).amt - ((completeAmount env.active avail ci reqs).used +
        (completeAmount env.active avail ci reqs).failed) =
      (sumReqs env.active reqs).avail +
        amounts (reserving (toAdd env.active reqs
          (completeAmount env.active avail ci reqs).answers)) := by
  have htook := completeAmount_took h.active avail ci reqs
  have hrest := amounts_rest (reqs.drop (completeAmount env.active avail ci reqs).next)
    htook.reserve
  rw [take_append_drop] at hrest
  rw [h.toAdd_eq ci avail, htook.amount, h.sums]
  exact hrest

end TaskReqs

/-! ### The amount of a create message -/

variable {active : Activity}

/-- Off-chain requests come before all others. -/
theorem takeWhile_eq_filter (h : reqs.Pairwise fun a b => mergedBefore b a = false) :
    reqs.takeWhile (·.opts.offChain) = reqs.filter (·.opts.offChain) := by
  induction reqs with
  | nil => rfl
  | cons r rest ih =>
    obtain ⟨hr, hrest⟩ := pairwise_cons.mp h
    cases hoff : r.opts.offChain with
    | true => rw [takeWhile_cons, filter_cons, hoff, if_pos rfl, if_pos rfl, ih hrest]
    | false =>
      have hon : ∀ q ∈ rest, ¬q.opts.offChain = true := fun q hq hq' => by
        simpa [mergedBefore, hoff, hq'] using hr q hq
      rw [takeWhile_cons, filter_cons, hoff, filter_eq_nil_iff.mpr hon]
      rfl

theorem amounts_cons (r : FundsReq) (rest : List FundsReq) :
    amounts (r :: rest) = r.amt + amounts rest := rfl

/-- A cancelled request off chain is freed, but was not summed. -/
theorem summed_sub_freed (reqs : List FundsReq) :
    amounts (reqs.filter (active .sum)) - amounts (reqs.filter (·.opts.offChain)) =
      amounts (reqs.filter fun r => !r.opts.offChain && active .sum r) -
        amounts (reqs.filter fun r => r.opts.offChain && !active .sum r) := by
  induction reqs with
  | nil => rfl
  | cons r rest ih =>
    cases hoff : r.opts.offChain <;> cases hactive : active .sum r <;>
      simp only [filter_cons, hoff, hactive, Bool.not_true, Bool.not_false, Bool.and_true,
        Bool.and_false, if_true, Bool.false_eq_true, if_false, amounts_cons] <;>
      omega

/-! ## The queue -/

theorem Ledger.createPaych {amt avail : Int} (h : Ledger ca)
    (hamt : amt = avail + amounts (reserving charged)) (havail : 0 ≤ avail) :
    Ledger (createPaych ca charged amt avail) := by
  refine h.push get?_insert (Nat.le_succ _) (fun m hm => ?_) ?_
  · obtain ⟨-, -, ci, -, hget, -⟩ := h.flight m _ hm
    exact lt_irrefl _ (lt_nextUUID hget)
  · exact {
      owns := ⟨rfl, rfl, rfl⟩
      balanced := by
        have hnone : ca.granted ca.store.nextUUID = 0 :=
          sum_zero _ fun c hc => granted_of_ne (ne_of_lt (h.channel_lt c hc))
        rw [hnone]
        rfl
      nonneg := le_refl 0
      pending_nonneg := havail
      pending := hamt
      creating _ _ := ⟨rfl, rfl, rfl⟩
      awaits := rfl
      only m kind hm := by
        cases kind with
        | create => exact (some.inj hm).symm
        | addFunds => cases hm }

/-- Funds are added to a channel that no message is on its way for. -/
theorem Ledger.addFunds {amt avail : Int} (h : Ledger ca)
    (hget : ca.store.channels.get? id = some ci) (howns : ca.Owns ci)
    (hcreate : ci.createMsg = none) (hadd : ci.addFundsMsg = none)
    (hamt : amt = avail + amounts (reserving charged)) (havail : 0 ≤ avail) :
    Ledger (addFunds ca id charged amt avail) := by
  have hbooks := h.books id ci hget howns
  have hsent : Sent ca id .addFunds
      { ci with
        pendingAmount := amt
        pendingAvailableAmount := avail
        addFundsMsg := some ca.nextMsg } charged :=
    { owns := { howns with }
      balanced := hbooks.balanced
      nonneg := hbooks.nonneg
      pending_nonneg := havail
      pending := hamt
      creating m hm := nomatch hm.symm.trans hcreate
      awaits := rfl
      only m kind hm := by
        cases kind with
        | create => exact nomatch hm.symm.trans hcreate
        | addFunds => exact (some.inj hm).symm }
  refine h.push (fun id' => ?_) ?_ (h.not_inFlight hget hcreate hadd) hsent
  · show (ca.store.mutate id _).channels.get? id' = _
    rw [get?_mutate, hget]
    rfl
  · show _ ≤ (ca.store.mutate id _).nextUUID
    rw [nextUUID_mutate]

theorem Ledger.processNoChannel (h : Ledger ca) (hreqs : TaskReqs env reqs) :
    Ledger (processNoChannel env ca reqs (sumReqs env.active reqs).amt
      (sumReqs env.active reqs).avail).ca := by
  have hrefused : ∀ answers, Ledger { ca with answers := answers } := fun answers =>
    (sameFunds_requests answers).ledger h
  unfold Paych.processNoChannel
  dsimp only
  split_ifs
  · exact hrefused _
  · exact (hrefused _).createPaych (hreqs.create_amount _ _) hreqs.avail_nonneg
  · exact hrefused _

theorem Ledger.processChannel (h : Ledger ca) (hreqs : TaskReqs env reqs)
    (hget : ca.store.channels.get? id = some ci) (howns : ca.Owns ci)
    (hcreate : ci.createMsg = none) (hadd : ci.addFundsMsg = none) :
    Ledger (processChannel env ca id ci reqs (sumReqs env.active reqs).amt
      (sumReqs env.active reqs).avail).ca := by
  have hnonneg := (h.books id ci hget howns).nonneg
  unfold Paych.processChannel
  dsimp only
  generalize hamt : toFill ci _ _ = avail
  -- what is reserved for filling is there
  have hfill : 0 ≤ avail ∧ avail ≤ ci.availableAmount := by
    have hle := hreqs.avail_le
    subst hamt
    unfold toFill
    split <;> omega
  have htook := completeAmount_took hreqs.active avail ci reqs
  have hfilled := h.filled avail hget hcreate hadd htook.used
    (fun r hr => htook.reserve r (htook.answers ▸ filledReqs_sublist.subset hr))
    ((htook.le hfill.1).trans hfill.2)
  split_ifs
  · exact hfilled
  · exact hfilled
  · exact hfilled.addFunds (get?_filled_self hget _ _)
      { howns with } hcreate hadd (hreqs.add_amount ci _)
      hreqs.avail_nonneg
  · exact hfilled

theorem Ledger.processTask (h : Ledger ca) (hreqs : TaskReqs env reqs) :
    Ledger (processTask env ca reqs (sumReqs env.active reqs).amt
      (sumReqs env.active reqs).avail).ca := by
  unfold Paych.processTask
  split
  · exact h.processNoChannel hreqs
  · next id ci hsome =>
    obtain ⟨hget, hfilter⟩ := findChan_some hsome
    simp only [Bool.and_eq_true, decide_eq_true_eq] at hfilter
    obtain ⟨⟨⟨⟨hdirection, -⟩, -⟩, hcontrol⟩, htarget⟩ := hfilter
    split
    · exact h
    · next hmsg =>
      obtain ⟨hcreate, hadd⟩ : ci.createMsg = none ∧ ci.addFundsMsg = none := by
        simpa using hmsg
      exact h.processChannel hreqs hget ⟨hdirection, hcontrol, htarget⟩ hcreate hadd

theorem Ledger.processQueue (h : Ledger ca)
    (hreqs : TaskReqs env (mergedReqs env (filterQueue env ca))) :
    Ledger (processQueue env ca).1 := by
  have hfilter : SameFunds ca (filterQueue env ca) := sameFunds_requests _
  have htask : Ledger (queueTask env ca).ca := (hfilter.ledger h).processTask hreqs
  rcases processQueue_cases env ca with ⟨-, heq⟩ | ⟨-, -, heq⟩ | ⟨-, res, -, heq⟩
  · rw [heq]
    exact hfilter.ledger h
  · rw [heq]
    exact htask
  · rw [heq]
    exact (sameFunds_requests _).ledger htask

/-! ## Events -/

theorem settle_touches :
    OnlyTouches id ca { ca with store := ca.store.mutate id ({ · with settling := true }) } where
  addrs := ⟨rfl, rfl⟩
  channels _ hne := get?_mutate_of_ne hne
  charges := ⟨[], (append_nil _).symm, forall_mem_nil _⟩
  confirmed := ⟨List.Subset.refl _, fun _ hm => .inl hm⟩
  flight _ _ _ := Iff.rfl
  flight_new _ hm := .inl hm
  waits _ _ _ hw := hw
  nextMsg := le_refl _
  nextUUID := (nextUUID_mutate _).ge

/-- A channel that is settling keeps its books. -/
theorem Ledger.settle (h : Ledger ca) (id : ChannelId) :
    Ledger { ca with store := ca.store.mutate id ({ · with settling := true }) } := by
  cases hget : ca.store.channels.get? id with
  | none =>
    rw [mutate_of_none hget]
    exact h
  | some ci =>
    have hget' : (ca.store.mutate id ({ · with settling := true })).channels.get? id =
        some { ci with settling := true } := get?_mutate_self hget _
    have hawaits : ∀ {m kind}, Awaits ci m kind → Awaits { ci with settling := true } m kind := by
      intro m kind hm
      cases kind <;> exact hm
    refine (settle_touches).ledger h
      ((lt_nextUUID hget).trans_le (settle_touches).nextUUID) ?_ (fun m hm => ?_)
      (fun m w hid hw => ?_)
    · intro ci' hci' howns
      obtain rfl : _ = ci' := mem_unique hget' hci'
      have hbooks := h.books id ci hget { howns with }
      exact { hbooks with }
    · obtain ⟨hlt, hconf, ci', kind, hci', howns, hm'⟩ := h.flight m id hm
      obtain rfl : ci = ci' := mem_unique hget hci'
      exact ⟨hlt, hconf, _, kind, hget', { howns with }, hawaits hm'⟩
    · obtain ⟨hm, hall⟩ := h.waits m w hw
      refine ⟨hid ▸ hm, fun ci' hci' => ?_⟩
      obtain rfl : _ = ci' := mem_unique hget' hci'
      exact hawaits (hall ci (hid ▸ hget))

theorem msgWaitComplete_same (err : Option WaitErr) : SameFunds ca (msgWaitComplete ca m err) := by
  unfold msgWaitComplete
  split
  · exact sameFunds_requests _
  · exact ⟨⟨rfl, rfl⟩, channels_saveMessageResult _ _, nextUUID_saveMessageResult _ _,
      rfl, rfl, rfl, fun _ _ h => h, rfl⟩

/-- What a run with positive amounts and without cancelled requests keeps. -/
structure FundsInv (ca : ChannelAccessor) : Prop where
  positive : PositiveInv ca
  reserve : ∀ r ∈ ca.fundsReqQueue, r.opts.offChain = true → r.opts.reserve = true
  ledger : Ledger ca

theorem FundsInv.step {event : AccessorEvent} (h : FundsInv ca) (hevent : Positive event)
    (hstep : accessorStep ca event = some ca') : FundsInv ca' := by
  refine ⟨h.positive.step hevent hstep, fun r hr => ?_, ?_⟩
  · rcases mem_queue_of_step hstep hr with hr | ⟨amt, opts, -, rfl, hopts⟩
    · exact h.reserve r hr
    · exact hopts
  · cases event with
    | getPaych amt opts =>
      cases hstep
      refine SameFunds.ledger ?_ h.ledger
      unfold getPaych
      split <;> exact sameFunds_requests _
    | processQueue env =>
      cases hstep
      have hmem : ∀ r ∈ mergedReqs env (filterQueue env ca), r ∈ ca.fundsReqQueue := fun r hr =>
        mem_of_mem_filter ((mergedReqs_perm env _).subset hr)
      have hnodup : (filterQueue env ca).fundsReqQueue.Nodup :=
        ((filterQueue_waits env ca).numbered h.positive.numbered).queued.of_map _
      exact h.ledger.processQueue ⟨hevent, (mergedReqs_perm env _).nodup_iff.mpr hnodup,
        fun r hr => h.positive.pos r (hmem r hr), fun r hr => h.reserve r (hmem r hr)⟩
    | waitMsg mcid out =>
      obtain ⟨w, hw, rfl⟩ := map_eq_some_iff.mp hstep
      exact h.ledger.waitMsg hw out
    | msgWaitComplete mcid =>
      obtain ⟨err, -, rfl⟩ := map_eq_some_iff.mp hstep
      exact (msgWaitComplete_same err).ledger h.ledger
    | getPaychWaitReady mcid =>
      cases hstep
      refine SameFunds.ledger ?_ h.ledger
      unfold getPaychWaitReady
      split
      · exact sameFunds_requests _
      · split <;> exact sameFunds_requests _
    | settle id =>
      cases hstep
      exact h.ledger.settle id

theorem ledger_new {fromAddr toAddr : Address}
    (h : ∀ id ci, store.channels.get? id = some ci → ¬ Between fromAddr toAddr ci) :
    Ledger (newChannelAccessor store fromAddr toAddr) where
  books id ci hget howns := absurd howns (h id ci hget)
  flight _ _ hm := nomatch hm
  waits _ _ hw := nomatch hw
  channel_lt := forall_mem_nil _
  owner := forall_mem_nil _
  confirmed_lt := forall_mem_nil _

end ConservationLemmas

open ConservationLemmas RequestLemmas in
/-- For every run of an accessor that starts without a channel between its addresses, with
positive amounts and no cancelled request, in every state: at most one message is on its
way for each channel, and for each channel of the accessor the confirmed amount is what is
available and what was granted to reserving requests, and what is available is not
negative. -/
theorem funds_conserved {store : Store} {fromAddr toAddr : Address}
    {events : List AccessorEvent} {states : List ChannelAccessor}
    (hnew : ∀ id ci, store.channels.get? id = some ci → ¬ Between fromAddr toAddr ci)
    (hpos : ∀ event ∈ events, Positive event)
    (hrun : trace accessorStep (newChannelAccessor store fromAddr toAddr) events = some states) :
    ∀ ca ∈ states, ∀ id,
      (∀ m m', ca.inFlight.get? m = some id → ca.inFlight.get? m' = some id → m = m') ∧
      ∀ ci, ca.store.channels.get? id = some ci → ca.Owns ci →
        ci.amount = ci.availableAmount + ca.granted id ∧ 0 ≤ ci.availableAmount := by
  have hstep : ∀ ca event ca', FundsInv ca → Positive event →
      accessorStep ca event = some ca' → FundsInv ca' := fun _ _ _ h => h.step
  have hstart : FundsInv (newChannelAccessor store fromAddr toAddr) :=
    ⟨⟨numbered_new _ _ _, atMostOnce_new _ _ _, forall_mem_nil _⟩,
      forall_mem_nil _, ledger_new hnew⟩
  intro ca hca id
  have hinv : FundsInv ca := trace_forall_guarded hstep hstart hrun
    (guarded_of_forall (fun event hevent _ => hpos event hevent) _) ca hca
  refine ⟨fun m m' hm hm' => hinv.ledger.unique hm hm', fun ci hget howns => ?_⟩
  have hbooks := hinv.ledger.books id ci hget howns
  exact ⟨hbooks.balanced, hbooks.nonneg⟩

/-- With 6 available, 3 are reserved and 5 are on their way: of the amount of 6, 3 are
granted. -/
theorem funds_conserved_add :
    ∃ states, trace accessorStep (newChannelAccessor .empty (.id 1) (.id 2)) reserveAndAdd =
        some states ∧
      (∃ ca ∈ states, ca.granted 0 = 3 ∧ ca.inFlight.get? 1 = some 0 ∧
        (ca.store.byChannelID 0).map ChannelInfo.amount = some 6) ∧
      ∀ ca ∈ states, ∀ id ci, ca.store.channels.get? id = some ci → ca.Owns ci →
        ci.amount = ci.availableAmount + ca.granted id := by
  refine exists_trace_and (by decide) fun states hrun => ?_
  have hnew : ∀ id ci, Store.empty.channels.get? id = some ci → ¬ Between (.id 1) (.id 2) ci := by
    intro id ci hget
    cases hget
  have hpos : ∀ event ∈ reserveAndAdd, Positive event := by
    simp [reserveAndAdd, funded, Positive, AllActive, calm]
  exact fun ca hca id ci hget howns =>
    ((funds_conserved hnew hpos hrun ca hca id).2 ci hget howns).1

open ConservationLemmas FundsLemmas in
/-- While there is no channel: a create message has the amounts of the requests on chain that
were active when the amounts were summed, and these are not negative, exactly if they are not
and the requests off chain that were cancelled before have no amount. -/
theorem createPaych_amount_iff {env : QueueEnv} {ca : ChannelAccessor} {mcid : MsgCid}
    (hnone : ca.store.outboundActiveByFromTo env.order env.settled ca.fromAddr ca.toAddr = none) :
    let reqs := mergedReqs env ca
    let sums := sumReqs env.active reqs
    let summed := amounts (reqs.filter fun r => !r.opts.offChain && env.active .sum r)
    (processTask env ca reqs sums.amt sums.avail).res = some ⟨none, some mcid, none⟩ →
      ∃ ca' charged amt avail,
        (processTask env ca reqs sums.amt sums.avail).ca = createPaych ca' charged amt avail ∧
        (0 ≤ amt ∧ amt = summed ↔ 0 ≤ summed ∧
          amounts (reqs.filter fun r => r.opts.offChain && !env.active .sum r) = 0) := by
  intro reqs sums summed hres
  have hsorted : reqs.Pairwise fun a b => mergedBefore b a = false :=
    env.sorter.sorted _ (by constructor <;> grind [mergedBefore])
  have hamt : sums.amt - _ = _ := summed_sub_freed reqs
  rw [← takeWhile_eq_filter hsorted, ← failOffChainNoChannel_freed ca.fromAddr ca.toAddr] at hamt
  unfold processTask processNoChannel at hres ⊢
  rw [hnone] at hres ⊢
  dsimp only at hres ⊢
  split_ifs at hres ⊢
  · cases hres
  · refine ⟨_, _, _, _, rfl, ?_⟩
    rw [hamt]
    omega
  · cases hres

/-- A request for 5 off chain, and one for 3 on chain. -/
def offAndOn : ChannelAccessor :=
  getPaych (getPaych (newChannelAccessor .empty (.id 1) (.id 2)) 5 ⟨true, true⟩) 3 (onChain false)

theorem createPaych_amount_three :
    ∃ ca' charged avail, (processTask calm offAndOn (mergedReqs calm offAndOn) 8 3).ca =
      createPaych ca' charged 3 avail := by
  obtain ⟨ca', charged, _, avail, hca, hamt⟩ := @createPaych_amount_iff calm offAndOn 0 rfl rfl
  obtain ⟨-, rfl⟩ := hamt.mpr (by decide)
  exact ⟨ca', charged, avail, hca⟩

/-- The first request is cancelled after the merge. Its amount is not summed, and freed. -/
theorem createPaych_negative :
    let env := { calm with active := fun m r => m = .filter || r.id = 1 }
    ((processQueue env offAndOn).1.store.byChannelID 0).map ChannelInfo.pendingAmount =
      some (-2) := by
  decide

end OpenDsn.Paych
