import OpenDsn.Lib.Table
import OpenDsn.Mpool.Message

/-!
# The payment channel store

`paychmgr/store.go`: the channels that the payment channel manager tracks, and the create
and add-funds messages it has sent for them. Channels are kept under an identifier of
their own, since a channel has no address until its create message is on chain.

* `Store.findChan_some`: what a query finds, whatever the order of the datastore;
* `Store.get?_mutate`, `Store.get?_remove`: the channels after a change.
-/

namespace OpenDsn.Paych

open Lib Mpool

abbrev MsgCid := Nat

/-- A UUID. -/
abbrev ChannelId := Nat

/-! ## Vouchers -/

structure Merge where
  lane : Nat
  nonce : Nat
deriving DecidableEq

structure ModVerifyParams where
  actor : Address
  method : Nat
  data : List UInt8
deriving DecidableEq

structure SignedVoucher where
  channelAddr : Address
  timeLockMin : Int
  timeLockMax : Int
  secretHash : List UInt8
  extra : Option ModVerifyParams
  lane : Nat
  nonce : Nat
  amount : Int
  minSettleHeight : Int
  merges : List Merge
  signature : Option (List UInt8)
deriving DecidableEq

structure VoucherInfo where
  voucher : SignedVoucher
  submitted : Bool

/-! ## Channels -/

inductive Direction
  | inbound
  | outbound
deriving DecidableEq

structure ChannelInfo where
  /-- Unset until the create message is confirmed. -/
  channel : Option Address
  control : Address
  target : Address
  direction : Direction
  vouchers : List VoucherInfo
  nextLane : Nat
  amount : Int
  availableAmount : Int
  pendingAvailableAmount : Int
  pendingAmount : Int
  createMsg : Option MsgCid
  addFundsMsg : Option MsgCid
  settling : Bool

namespace ChannelInfo

def fromAddr (ci : ChannelInfo) : Address :=
  if ci.direction = .outbound then ci.control else ci.target

def toAddr (ci : ChannelInfo) : Address :=
  if ci.direction = .outbound then ci.target else ci.control

end ChannelInfo

/-- What is known about a message that was sent. -/
structure MsgInfo where
  channelID : ChannelId
  received : Bool
  failed : Bool

/-! ## The store -/

/-- No channel has an identifier that is still to come. -/
structure Store where
  channels : Table ChannelId ChannelInfo
  messages : Table MsgCid MsgInfo
  /-- What `uuid.New` returns next. -/
  nextUUID : ChannelId
  fresh : ∀ id, nextUUID ≤ id → channels.get? id = none

namespace Store

def empty : Store := ⟨∅, ∅, 0, fun _ _ => rfl⟩

theorem lt_nextUUID {st : Store} {id : ChannelId} {ci : ChannelInfo}
    (h : st.channels.get? id = some ci) : id < st.nextUUID := by
  by_contra hle
  rw [st.fresh id (Nat.le_of_not_lt hle)] at h
  cases h

section

variable (st : Store)

/-- The first channel of a query that passes the filter. -/
def findChan (order : Arrangement) (filter : ChannelId → ChannelInfo → Bool) :
    Option (ChannelId × ChannelInfo) :=
  (order.arrange st.channels.pairs).find? fun p => filter p.1 p.2

/-- `OutboundActiveByFromTo`, where `settled` has the channels that are settling on chain
or whose state on chain cannot be loaded. -/
def outboundActiveByFromTo (order : Arrangement) (settled : Address → Bool)
    (fromAddr toAddr : Address) : Option (ChannelId × ChannelInfo) :=
  st.findChan order fun _ ci =>
    ci.direction = .outbound && !ci.settling && !ci.channel.any settled &&
      ci.control = fromAddr && ci.target = toAddr

def byChannelID (id : ChannelId) : Option ChannelInfo := st.channels.get? id

/-- `mutateChannelInfo`. A channel that is not there is only logged. -/
def mutate (id : ChannelId) (f : ChannelInfo → ChannelInfo) : Store :=
  match h : st.channels.get? id with
  | none => st
  | some ci =>
      { st with
        channels := st.channels.insert id (f ci)
        fresh := fun id' hle => by
          rw [Table.get?_insert, if_neg (Nat.ne_of_gt (Nat.lt_of_lt_of_le (lt_nextUUID h) hle))]
          exact st.fresh id' hle }

def saveNewMessage (id : ChannelId) (mcid : MsgCid) : Store :=
  { st with messages := st.messages.insert mcid ⟨id, false, false⟩ }

/-- The error is kept as a text; what counts is whether there is one. -/
def saveMessageResult (mcid : MsgCid) (failed : Bool) : Store :=
  match st.messages.get? mcid with
  | none => st
  | some minfo =>
      { st with
        messages := st.messages.insert mcid
          { minfo with received := true, failed := minfo.failed || failed } }

/-- The record that `CreateChannel` stores. -/
def newChannelInfo (fromAddr toAddr : Address) (createMsgCid : MsgCid) (amt avail : Int) :
    ChannelInfo where
  channel := none
  control := fromAddr
  target := toAddr
  direction := .outbound
  vouchers := []
  nextLane := 0
  amount := 0
  availableAmount := 0
  pendingAvailableAmount := avail
  pendingAmount := amt
  createMsg := some createMsgCid
  addFundsMsg := none
  settling := false

/-- `CreateChannel`, under a new identifier. -/
def createChannel (fromAddr toAddr : Address) (createMsgCid : MsgCid) (amt avail : Int) : Store :=
  saveNewMessage
    { st with
      channels := st.channels.insert st.nextUUID
        (newChannelInfo fromAddr toAddr createMsgCid amt avail)
      nextUUID := st.nextUUID + 1
      fresh := fun id hle => by
        rw [Table.get?_insert, if_neg (Nat.ne_of_gt hle)]
        exact st.fresh id (Nat.le_of_succ_le hle) }
    st.nextUUID createMsgCid

def removeChannel (id : ChannelId) : Store :=
  { st with
    channels := st.channels.erase id
    fresh := fun id' hle => by
      rw [Table.get?_erase]
      split
      · rfl
      · exact st.fresh id' hle }

end

/-! ## What the operations do -/

section

variable {st : Store} {order : Arrangement} {filter : ChannelId → ChannelInfo → Bool}
  {id : ChannelId} {ci : ChannelInfo}

theorem findChan_some (h : st.findChan order filter = some (id, ci)) :
    st.channels.get? id = some ci ∧ filter id ci = true :=
  ⟨Table.mem_pairs.mp ((order.perm _).mem_iff.mp (List.mem_of_find?_eq_some h)),
    List.find?_some (p := fun p : ChannelId × ChannelInfo => filter p.1 p.2) h⟩

theorem get?_mutate (f : ChannelInfo → ChannelInfo) (id' : ChannelId) :
    (st.mutate id f).channels.get? id' =
      if id' = id then (st.channels.get? id).map f else st.channels.get? id' := by
  unfold mutate
  split
  · next hnone =>
    split
    · next heq => rw [heq, hnone]; rfl
    · rfl
  · next ci hsome => rw [Table.get?_insert, hsome]; rfl

theorem get?_mutate_self (h : st.channels.get? id = some ci) (f : ChannelInfo → ChannelInfo) :
    (st.mutate id f).channels.get? id = some (f ci) := by
  rw [get?_mutate, if_pos rfl, h]
  rfl

theorem get?_mutate_of_ne {f : ChannelInfo → ChannelInfo} {id' : ChannelId} (h : id' ≠ id) :
    (st.mutate id f).channels.get? id' = st.channels.get? id' :=
  (get?_mutate f id').trans (if_neg h)

theorem mutate_of_none (h : st.channels.get? id = none) (f : ChannelInfo → ChannelInfo) :
    st.mutate id f = st := by
  unfold mutate
  split
  · rfl
  · next ci hsome => exact absurd (h.symm.trans hsome) (nomatch ·)

theorem get?_remove (id' : ChannelId) :
    (st.removeChannel id).channels.get? id' =
      if id' = id then none else st.channels.get? id' := Table.get?_erase id'

@[simp] theorem nextUUID_mutate (f : ChannelInfo → ChannelInfo) :
    (st.mutate id f).nextUUID = st.nextUUID := by
  unfold mutate
  split <;> rfl

@[simp] theorem channels_saveMessageResult (mcid : MsgCid) (failed : Bool) :
    (st.saveMessageResult mcid failed).channels = st.channels := by
  unfold saveMessageResult
  split <;> rfl

@[simp] theorem nextUUID_saveMessageResult (mcid : MsgCid) (failed : Bool) :
    (st.saveMessageResult mcid failed).nextUUID = st.nextUUID := by
  unfold saveMessageResult
  split <;> rfl

end

end Store

end OpenDsn.Paych
