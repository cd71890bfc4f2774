import OpenDsn.Lib.Run
import OpenDsn.Lib.Sort
import OpenDsn.Paych.Vouchers

/-!
# Funding a payment channel

`paychmgr/simple.go`: requests for funds between two addresses are queued in a channel
accessor. When the queue is processed, all requests in it are merged into one task. The
task creates the channel, waits while a message is on its way, or takes what it can from
the available funds and sends a message with the rest.

An accessor holds its lock while it processes the queue, stores the result of a message, or
completes a wait, and these are the events of a run. A context can be done at any moment,
also while the queue is processed, so an event comes with what `isActive` returns at each
of the places where it is called. Besides the fields of the source, an accessor has what a
run leaves behind: the answers to requests, what their amounts were charged to, and the
messages on their way.
-/

namespace OpenDsn.Paych

open Lib Mpool List

/-! ## Requests -/

structure GetOpts where
  reserve : Bool
  offChain : Bool
deriving DecidableEq

/-- A request, with a number of its own. -/
structure FundsReq where
  id : Nat
  amt : Int
  opts : GetOpts
deriving DecidableEq

inductive FundsErr
  /-- "not enough funds available in the payment channel %s; add funds with 'lotus paych
  add-funds %s %s %s'" -/
  | notEnoughFunds (channel : Option Address) (fromAddr toAddr : Address) (amt : Int)
  /-- "payment channel doesn't exist, create with 'lotus paych add-funds %s %s %s'" -/
  | noChannel (fromAddr toAddr : Address) (amt : Int)
  /-- The message was not built or not pushed. -/
  | pushFailed

structure PaychFundsRes where
  channel : Option Address
  mcid : Option MsgCid
  err : Option FundsErr

/-- A result that is sent to the promise of a request. -/
structure Answer where
  req : FundsReq
  res : PaychFundsRes

/-- The places where `isActive` is called, in the order in which a task comes to them:
`filterQueue`, `sum`, the loops that complete or fail requests, the second call before a
request is refused, and `onComplete`. -/
inductive Moment
  | filter
  | sum
  | fill
  | refuse
  | complete
deriving DecidableEq

/-- Which requests are active at a moment. -/
abbrev Activity := Moment → FundsReq → Bool

/-- No request is cancelled. -/
def AllActive (active : Activity) : Prop := ∀ m r, active m r = true

/-- The order of a merged request: off-chain requests, then reserving ones, then smaller
ones. -/
def mergedBefore (a b : FundsReq) : Bool :=
  if a.opts.offChain ≠ b.opts.offChain then a.opts.offChain
  else if a.opts.reserve ≠ b.opts.reserve then a.opts.reserve
  else a.amt < b.amt

/-- The amounts of some requests. -/
def amounts (reqs : List FundsReq) : Int := (reqs.map FundsReq.amt).sum

structure Sums where
  amt : Int
  avail : Int

/-- `sum`: all amounts, and those that are not reserved. -/
def sumReqs (active : Activity) (reqs : List FundsReq) : Sums where
  amt := amounts (reqs.filter (active .sum))
  avail := amounts ((reqs.filter (active .sum)).filter (!·.opts.reserve))

/-! ## Filling requests from the available funds -/

/-- The variables of the loop of `completeAmount`, and the answers so far. -/
structure Filling where
  used : Int
  failed : Int
  next : Nat
  answers : List Answer

namespace Filling

def empty : Filling := ⟨0, 0, 0, []⟩

/-- Request number `i` is filled. -/
def fill (acc : Filling) (ci : ChannelInfo) (i : Nat) (r : FundsReq) : Filling :=
  { acc with
    used := acc.used + r.amt
    next := i + 1
    answers := acc.answers ++ [⟨r, ⟨ci.channel, none, none⟩⟩] }

/-- An off-chain request that cannot be filled gets an error. -/
def refuse (active : Activity) (acc : Filling) (ci : ChannelInfo) (i : Nat) (r : FundsReq) :
    Filling :=
  if active .refuse r then
    { acc with
      failed := acc.failed + r.amt
      next := i + 1
      answers := acc.answers ++
        [⟨r, ⟨ci.channel, none, some (.notEnoughFunds ci.channel ci.fromAddr ci.toAddr r.amt)⟩⟩] }
  else { acc with next := i + 1 }

/-- The loop of `completeAmount`, from request number `i` on. -/
def run (active : Activity) (avail : Int) (ci : ChannelInfo) :
    Nat → List FundsReq → Filling → Filling
  | _, [], acc => acc
  | i, r :: rest, acc =>
      if !r.opts.reserve then acc
      else if !active .fill r then run active avail ci (i + 1) rest acc
      else if r.amt > avail - acc.used then
        if r.opts.offChain then run active avail ci (i + 1) rest (acc.refuse active ci i r)
        else acc
      else run active avail ci (i + 1) rest (acc.fill ci i r)

end Filling

def completeAmount (active : Activity) (avail : Int) (ci : ChannelInfo) (reqs : List FundsReq) :
    Filling :=
  Filling.run active avail ci 0 reqs .empty

/-- The variables of the loop of `failOffChainNoChannel`, and the answers so far. -/
structure Refusing where
  freed : Int
  next : Nat
  answers : List Answer

/-- The loop of `failOffChainNoChannel`, from request number `i` on. -/
def Refusing.run (active : Activity) (fromAddr toAddr : Address) :
    Nat → List FundsReq → Refusing → Refusing
  | _, [], acc => acc
  | i, r :: rest, acc =>
      if !r.opts.offChain then acc
      else
        let acc := { acc with freed := acc.freed + r.amt }
        if !active .fill r then run active fromAddr toAddr (i + 1) rest acc
        else
          run active fromAddr toAddr (i + 1) rest
            { acc with
              next := i + 1
              answers := acc.answers ++
                [⟨r, ⟨none, none, some (.noChannel fromAddr toAddr r.amt)⟩⟩] }

def failOffChainNoChannel (active : Activity) (fromAddr toAddr : Address)
    (reqs : List FundsReq) : Refusing :=
  Refusing.run active fromAddr toAddr 0 reqs ⟨0, 0, []⟩

/-! ## The accessor -/

/-- What the amount of a request is charged to. -/
inductive Source
  | available (channelID : ChannelId)
  | message (channelID : ChannelId) (mcid : MsgCid)
deriving DecidableEq

structure Charge where
  req : FundsReq
  source : Source

inductive MsgKind
  | create
  | addFunds

/-- A goroutine in `waitForPaychCreateMsg` or `waitForAddFundsMsg`. -/
structure Wait where
  kind : MsgKind
  channelID : ChannelId

/-- `canceled` is for an error that wraps `context.Canceled` or
`context.DeadlineExceeded`. -/
inductive WaitErr
  | exitCode
  | failed
  | canceled
deriving DecidableEq

structure ChannelAccessor where
  fromAddr : Address
  toAddr : Address
  store : Store
  fundsReqQueue : List FundsReq
  /-- The messages that callers wait for in `getPaychWaitReady`. -/
  msgListeners : List MsgCid
  /-- The number of the next request. -/
  nextReq : Nat
  /-- The CID of the next message that is pushed. -/
  nextMsg : MsgCid
  waits : Table MsgCid Wait
  /-- Waits that are over, with their error, and are still to call `msgWaitComplete`. -/
  waited : Table MsgCid (Option WaitErr)
  answers : List Answer
  charges : List Charge
  /-- The messages whose result on chain is not known yet, with their channels. -/
  inFlight : Table MsgCid ChannelId
  confirmed : List MsgCid

def newChannelAccessor (store : Store) (fromAddr toAddr : Address) : ChannelAccessor where
  fromAddr := fromAddr
  toAddr := toAddr
  store := store
  fundsReqQueue := []
  msgListeners := []
  nextReq := 0
  nextMsg := 0
  waits := ∅
  waited := ∅
  answers := []
  charges := []
  inFlight := ∅
  confirmed := []

/-- What the processing of a queue meets outside of the accessor. -/
structure QueueEnv where
  active : Activity
  sorter : Sorter
  /-- The order of a datastore query. -/
  order : Arrangement
  /-- Channels that are settling on chain, or cannot be loaded. -/
  settled : Address → Bool
  /-- Whether a message is built and pushed. -/
  pushed : Bool

/-- A message is pushed, and a goroutine waits for it. -/
def ChannelAccessor.push (ca : ChannelAccessor) (kind : MsgKind) (id : ChannelId) (store : Store)
    (charged : List FundsReq) : ChannelAccessor :=
  { ca with
    store := store
    nextMsg := ca.nextMsg + 1
    waits := ca.waits.insert ca.nextMsg ⟨kind, id⟩
    inFlight := ca.inFlight.insert ca.nextMsg id
    charges := ca.charges ++ charged.map (⟨·, .message id ca.nextMsg⟩) }

/-- `createPaych` for the requests `charged`. -/
def createPaych (ca : ChannelAccessor) (charged : List FundsReq) (amt avail : Int) :
    ChannelAccessor :=
  ca.push .create ca.store.nextUUID
    (ca.store.createChannel ca.fromAddr ca.toAddr ca.nextMsg amt avail) charged

/-- `addFunds` for the requests `charged`. -/
def addFunds (ca : ChannelAccessor) (id : ChannelId) (charged : List FundsReq) (amt avail : Int) :
    ChannelAccessor :=
  ca.push .addFunds id
    ((ca.store.mutate id fun ci =>
      { ci with
        pendingAmount := amt
        pendingAvailableAmount := avail
        addFundsMsg := some ca.nextMsg }).saveNewMessage id ca.nextMsg) charged

/-- What is reserved for `completeAmount`: at most what the reserving requests need. -/
def toFill (ci : ChannelInfo) (amt av : Int) : Int :=
  if ci.availableAmount > amt - av then amt - av else ci.availableAmount

/-- The requests that answers fill. -/
def filledReqs (answers : List Answer) : List FundsReq :=
  (answers.filter (·.res.err.isNone)).map Answer.req

/-- The accessor with the answers and charges of `completeAmount`, after `avail` is taken
out of the available funds and the part that is not used is given back. -/
def ChannelAccessor.filled (ca : ChannelAccessor) (id : ChannelId) (avail : Int) (f : Filling) :
    ChannelAccessor :=
  { ca with
    store := (ca.store.mutate id fun ci =>
      { ci with availableAmount := ci.availableAmount - avail }).mutate id fun ci =>
      { ci with availableAmount := ci.availableAmount + (avail - f.used) }
    answers := ca.answers ++ f.answers
    charges := ca.charges ++ (filledReqs f.answers).map (⟨·, .available id⟩) }

/-- The requests in the amount of a create message: `failOffChainNoChannel` frees the
amounts of the others. -/
def toCreate (active : Activity) (reqs : List FundsReq) : List FundsReq :=
  (reqs.dropWhile (·.opts.offChain)).filter (active .sum)

/-- The requests in the amount of an add-funds message: those of the sum that have no
answer yet. -/
def toAdd (active : Activity) (reqs : List FundsReq) (answers : List Answer) : List FundsReq :=
  (reqs.filter (active .sum)).filter fun r => r ∉ answers.map Answer.req

/-- What a task returns, the requests that are left in it, and the accessor. -/
structure TaskResult where
  res : Option PaychFundsRes
  reqs : List FundsReq
  ca : ChannelAccessor

section

variable (env : QueueEnv) (ca : ChannelAccessor)

/-- A task while there is no channel. -/
def processNoChannel (reqs : List FundsReq) (amt avail : Int) : TaskResult :=
  let failing := failOffChainNoChannel env.active ca.fromAddr ca.toAddr reqs
  let left := reqs.drop failing.next
  let ca := { ca with answers := ca.answers ++ failing.answers }
  if left = [] then
    ⟨some ⟨none, none, some (.noChannel ca.fromAddr ca.toAddr 0)⟩, left, ca⟩
  else if env.pushed then
    ⟨some ⟨none, some ca.nextMsg, none⟩, left,
      createPaych ca (toCreate env.active reqs) (amt - failing.freed) avail⟩
  else ⟨some ⟨none, none, some .pushFailed⟩, left, ca⟩

/-- A task with a channel that no message is on its way to. -/
def processChannel (id : ChannelId) (ci : ChannelInfo) (reqs : List FundsReq) (amt avail : Int) :
    TaskResult :=
  let filling := completeAmount env.active (toFill ci amt avail) ci reqs
  let left := reqs.drop filling.next
  let ca := ca.filled id (toFill ci amt avail) filling
  let amt := amt - (filling.used + filling.failed)
  if left = [] then ⟨some ⟨ci.channel, none, none⟩, left, ca⟩
  else if amt ≤ 0 then ⟨none, left, ca⟩
  else if env.pushed then
    ⟨some ⟨ci.channel, some ca.nextMsg, none⟩, left,
      addFunds ca id (toAdd env.active reqs filling.answers) amt avail⟩
  else ⟨some ⟨none, none, some .pushFailed⟩, left, ca⟩

def processTask (reqs : List FundsReq) (amt avail : Int) : TaskResult :=
  match ca.store.outboundActiveByFromTo env.order env.settled ca.fromAddr ca.toAddr with
  | none => processNoChannel env ca reqs amt avail
  | some (id, ci) =>
      if ci.createMsg.isSome || ci.addFundsMsg.isSome then ⟨none, reqs, ca⟩
      else processChannel env ca id ci reqs amt avail

/-- The merged request is done: the queue is cleared and what is left in it is answered. -/
def TaskResult.finish (t : TaskResult) (active : Activity) (res : PaychFundsRes) :
    ChannelAccessor :=
  { t.ca with
    fundsReqQueue := []
    answers := t.ca.answers ++ (t.reqs.filter (active .complete)).map (⟨·, res⟩) }

/-- Cancelled requests are taken out of the queue. -/
def filterQueue : ChannelAccessor :=
  { ca with fundsReqQueue := ca.fundsReqQueue.filter (env.active .filter) }

/-- `newMergedFundsReq` -/
def mergedReqs : List FundsReq :=
  env.sorter.sort mergedBefore ca.fundsReqQueue

/-- `processQueue`, with the amount that it reports as queued. -/
def processQueue : ChannelAccessor × Int :=
  let ca := filterQueue env ca
  if ca.fundsReqQueue = [] then (ca, 0)
  else
    let reqs := mergedReqs env ca
    let sums := sumReqs env.active reqs
    if sums.amt = 0 then (ca, sums.amt)
    else
      let task := processTask env ca reqs sums.amt sums.avail
      match task.res with
      | none => (task.ca, sums.amt)
      | some res => (task.finish env.active res, 0)

end

/-! ## Messages -/

/-- What a wait for a message comes to: the message is on chain without an error, and has
created the channel `addr` if it is a create message, or with one, or the wait fails and
nothing is known about the message. -/
inductive WaitOutcome
  | confirmed (addr : Address)
  | exitCode
  | failed
  | canceled

def WaitOutcome.err : WaitOutcome → Option WaitErr
  | .confirmed _ => none
  | .exitCode => some .exitCode
  | .failed => some .failed
  | .canceled => some .canceled

/-- A created channel has its address, and its pending funds. -/
def ChannelInfo.created (ci : ChannelInfo) (addr : Address) : ChannelInfo :=
  { ci with
    channel := some addr
    amount := ci.pendingAmount
    availableAmount := ci.pendingAvailableAmount
    pendingAmount := 0
    pendingAvailableAmount := 0
    createMsg := none }

/-- The pending funds are added. -/
def ChannelInfo.fundsAdded (ci : ChannelInfo) : ChannelInfo :=
  { ci with
    amount := ci.amount + ci.pendingAmount
    availableAmount := ci.availableAmount + ci.pendingAvailableAmount
    pendingAmount := 0
    pendingAvailableAmount := 0
    addFundsMsg := none }

/-- The pending funds are dropped. -/
def ChannelInfo.fundsDropped (ci : ChannelInfo) : ChannelInfo :=
  { ci with pendingAmount := 0, pendingAvailableAmount := 0, addFundsMsg := none }

/-- The store after `waitPaychCreateMsg` or `waitAddFundsMsg`. -/
def waitedStore (store : Store) (w : Wait) : WaitOutcome → Store
  | .confirmed addr =>
      match w.kind with
      | .create => store.mutate w.channelID (·.created addr)
      | .addFunds => store.mutate w.channelID (·.fundsAdded)
  | .exitCode =>
      match w.kind with
      | .create => store.removeChannel w.channelID
      | .addFunds => store.mutate w.channelID (·.fundsDropped)
  | .failed => store
  | .canceled => store

section

variable (ca : ChannelAccessor)

/-- `waitPaychCreateMsg` or `waitAddFundsMsg`. -/
def waitMsg (mcid : MsgCid) (w : Wait) (out : WaitOutcome) : ChannelAccessor :=
  { ca with
    store := waitedStore ca.store w out
    waits := ca.waits.erase mcid
    waited := ca.waited.insert mcid out.err
    inFlight := match out with
      | .confirmed _ => ca.inFlight.erase mcid
      | .exitCode => ca.inFlight.erase mcid
      | .failed => ca.inFlight
      | .canceled => ca.inFlight
    confirmed := match out with
      | .confirmed _ => mcid :: ca.confirmed
      | _ => ca.confirmed }

/-- `msgWaitComplete`. The queue is processed by an event of its own. -/
def msgWaitComplete (mcid : MsgCid) (err : Option WaitErr) : ChannelAccessor :=
  let ca := { ca with waited := ca.waited.erase mcid }
  if err = some .canceled then ca
  else
    { ca with
      store := ca.store.saveMessageResult mcid err.isSome
      msgListeners := ca.msgListeners.filter (· ≠ mcid) }

/-- `getPaychWaitReady` up to where the lock is given back. -/
def getPaychWaitReady (mcid : MsgCid) : ChannelAccessor :=
  match ca.store.messages.get? mcid with
  | none => ca
  | some minfo =>
      if minfo.failed || minfo.received then ca
      else { ca with msgListeners := ca.msgListeners ++ [mcid] }

/-! ## Events -/

/-- `GetPaych` of the manager, up to where the request is queued. A request that is to add
funds off chain is turned down. -/
def getPaych (amt : Int) (opts : GetOpts) : ChannelAccessor :=
  if !opts.reserve && opts.offChain then ca
  else
    { ca with
      fundsReqQueue := ca.fundsReqQueue ++ [⟨ca.nextReq, amt, opts⟩]
      nextReq := ca.nextReq + 1 }

inductive AccessorEvent
  | getPaych (amt : Int) (opts : GetOpts)
  | processQueue (env : QueueEnv)
  | waitMsg (mcid : MsgCid) (out : WaitOutcome)
  | msgWaitComplete (mcid : MsgCid)
  | getPaychWaitReady (mcid : MsgCid)
  | settle (id : ChannelId)

/-- An event; `none` for one of a goroutine that there is not. -/
def accessorStep : AccessorEvent → Option ChannelAccessor
  | .getPaych amt opts => some (getPaych ca amt opts)
  | .processQueue env => some (processQueue env ca).1
  | .waitMsg mcid out => (ca.waits.get? mcid).map (waitMsg ca mcid · out)
  | .msgWaitComplete mcid => (ca.waited.get? mcid).map (msgWaitComplete ca mcid ·)
  | .getPaychWaitReady mcid => some (getPaychWaitReady ca mcid)
  | .settle id => some { ca with store := ca.store.mutate id ({ · with settling := true }) }

end

/-! ## Serving requests from a balance -/

/-- Reserving requests in their order, with a balance of `bal`: one that is active is answered, and
paid if the balance covers it, as far as it is covered or off-chain. The result is the number of
requests up to the last such one, and those that are answered. -/
def served (active : Activity) : Int → List FundsReq → Nat × List FundsReq
  | _, [] => (0, [])
  | bal, r :: rest =>
      if !r.opts.reserve then (0, [])
      else if !active .fill r then
        let (n, answered) := served active bal rest
        (if n = 0 then 0 else n + 1, answered)
      else if r.amt > bal then
        if r.opts.offChain then
          let (n, answered) := served active bal rest
          (n + 1, [r].filter (active .refuse) ++ answered)
        else (0, [])
      else
        let (n, answered) := served active (bal - r.amt) rest
        (n + 1, r :: answered)

namespace FundsLemmas

open Filling

variable {active : Activity} {avail : Int} {ci : ChannelInfo}

/-! ### The loops -/

/-- The answers of `failOffChainNoChannel` are to requests before `next`. -/
theorem refusing_run_answers {fromAddr toAddr : Address} (reqs : List FundsReq) (i : Nat)
    (acc : Refusing) : ∃ n given, given.Sublist (reqs.take n) ∧
      (Refusing.run active fromAddr toAddr i reqs acc).answers.map Answer.req =
        acc.answers.map Answer.req ++ given ∧
      (Refusing.run active fromAddr toAddr i reqs acc).next =
        if n = 0 then acc.next else i + n := by
  induction reqs generalizing i acc with
  | nil => exact ⟨0, [], .slnil, (append_nil _).symm, rfl⟩
  | cons r rest ih =>
    unfold Refusing.run
    split_ifs
    · exact ⟨0, [], .slnil, (append_nil _).symm, rfl⟩
    · obtain ⟨n, given, hgiven, hanswers, hnext⟩ :=
        ih (i + 1) { acc with freed := acc.freed + r.amt }
      refine ⟨if n = 0 then 0 else n + 1, given, ?_, hanswers, hnext.trans (by grind)⟩
      split
      · next hzero => rwa [hzero] at hgiven
      · exact hgiven.cons r
    · obtain ⟨n, given, hgiven, hanswers, hnext⟩ := ih (i + 1) _
      refine ⟨n + 1, r :: given, hgiven.cons_cons r, hanswers.trans ?_, hnext.trans ?_⟩
      · simp
      · grind

theorem failOffChainNoChannel_sublist (active : Activity) (fromAddr toAddr : Address)
    (reqs : List FundsReq) :
    ((failOffChainNoChannel active fromAddr toAddr reqs).answers.map Answer.req).Sublist
      (reqs.take (failOffChainNoChannel active fromAddr toAddr reqs).next) := by
  obtain ⟨n, given, hgiven, hanswers, hnext⟩ :=
    @refusing_run_answers active fromAddr toAddr reqs 0 ⟨0, 0, []⟩
  have hnext : (failOffChainNoChannel active fromAddr toAddr reqs).next = n :=
    hnext.trans (by grind)
  rw [hnext]
  exact hanswers ▸ hgiven

/-! ### The loops without cancelled requests -/

theorem amounts_append (a b : List FundsReq) : amounts (a ++ b) = amounts a + amounts b := by
  unfold amounts
  rw [map_append, sum_append]

/-- The loop of `completeAmount`, in terms of amounts, activity and balance. -/
theorem run_served (reqs : List FundsReq) (i : Nat) (acc : Filling) :
    let s := served active (avail - acc.used) reqs
    let f := run active avail ci i reqs acc
    f.answers.map Answer.req = acc.answers.map Answer.req ++ s.2 ∧
      f.used + f.failed = acc.used + acc.failed + amounts s.2 ∧
      (f.next = if s.1 = 0 then acc.next else i + s.1) ∧
      (acc.used = amounts (filledReqs acc.answers) → f.used = amounts (filledReqs f.answers)) ∧
      (acc.used ≤ avail → f.used ≤ avail) := by
  induction reqs generalizing i acc with
  | nil => simp [served, run, amounts]
  | cons r rest ih =>
    unfold served run
    split_ifs with hreserve hfill hlarge hoff
    · simp [amounts]
    · obtain ⟨hanswers, hamount, hnext, hkept⟩ := ih (i + 1) acc
      exact ⟨hanswers, hamount, by grind, hkept⟩
    · have h := ih (i + 1) (acc.refuse active ci i r)
      cases hrefuse : active .refuse r <;>
      simp_all [refuse, amounts, filledReqs] <;> grind
    · simp [amounts]
    · have h := ih (i + 1) (acc.fill ci i r)
      simp_all [fill, amounts, filledReqs, sub_sub]
      grind

theorem served_sublist (bal : Int) (reqs : List FundsReq) :
    (served active bal reqs).2.Sublist (reqs.take (served active bal reqs).1) := by
  induction reqs generalizing bal with
  | nil => exact .slnil
  | cons r rest ih =>
    unfold served
    split_ifs with hreserve hfill hlarge hoff
    · exact .slnil
    · have h := ih bal
      dsimp only
      split
      · next hzero => rwa [hzero] at h
      · exact h.cons r
    · exact (filter_sublist (l := [r])).append (ih bal)
    · exact .slnil
    · exact (ih (bal - r.amt)).cons_cons r

/-- Without cancelled requests, those that are served reserve and are answered. -/
theorem served_active (hactive : AllActive active) (bal : Int) (reqs : List FundsReq) :
    (served active bal reqs).2 = reqs.take (served active bal reqs).1 ∧
      ∀ r ∈ reqs.take (served active bal reqs).1, r.opts.reserve = true := by
  induction reqs generalizing bal with
  | nil => simp [served]
  | cons r rest ih =>
    have hfill : ∀ m, active m r = true := fun m => hactive m r
    unfold served
    split_ifs <;> simp_all <;> exact (ih _).2

theorem completeAmount_served (active : Activity) (avail : Int) (ci : ChannelInfo)
    (reqs : List FundsReq) :
    let s := served active avail reqs
    let f := completeAmount active avail ci reqs
    f.answers.map Answer.req = s.2 ∧ f.used + f.failed = amounts s.2 ∧ f.next = s.1 ∧
      f.used = amounts (filledReqs f.answers) ∧ (0 ≤ avail → f.used ≤ avail) := by
  have h := @run_served active avail ci reqs 0 .empty
  rw [empty, sub_zero] at h
  obtain ⟨hanswers, hamount, hnext, hfilled, hle⟩ := h
  exact ⟨hanswers, hamount.trans (by simp), hnext.trans (by grind), hfilled rfl, hle⟩

/-- The answers of `completeAmount` are to requests that are taken out of the task. -/
theorem completeAmount_sublist (reqs : List FundsReq) :
    ((completeAmount active avail ci reqs).answers.map Answer.req).Sublist
      (reqs.take (completeAmount active avail ci reqs).next) := by
  obtain ⟨hanswers, -, hnext, -⟩ := completeAmount_served active avail ci reqs
  rw [hanswers, hnext]
  exact served_sublist avail reqs

/-- What `completeAmount` does without cancelled requests. -/
structure Took (taken : List FundsReq) (avail : Int) (f : Filling) : Prop where
  answers : f.answers.map Answer.req = taken
  amount : f.used + f.failed = amounts taken
  used : f.used = amounts (filledReqs f.answers)
  le : 0 ≤ avail → f.used ≤ avail
  reserve : ∀ r ∈ taken, r.opts.reserve = true

theorem completeAmount_took (hactive : AllActive active) (avail : Int) (ci : ChannelInfo)
    (reqs : List FundsReq) :
    Took (reqs.take (completeAmount active avail ci reqs).next) avail
      (completeAmount active avail ci reqs) := by
  obtain ⟨hanswers, hamount, hnext, hused, hle⟩ := completeAmount_served active avail ci reqs
  obtain ⟨heq, hreserve⟩ := served_active hactive avail reqs
  rw [hnext]
  exact ⟨heq ▸ hanswers, heq ▸ hamount, hused, hle, hreserve⟩

theorem refusing_run_freed {fromAddr toAddr : Address} (i : Nat) (reqs : List FundsReq)
    (acc : Refusing) :
    (Refusing.run active fromAddr toAddr i reqs acc).freed =
      acc.freed + amounts (reqs.takeWhile (·.opts.offChain)) := by
  induction reqs generalizing i acc with
  | nil => exact (add_zero _).symm
  | cons r rest ih =>
    unfold Refusing.run
    split_ifs with hoff
    · rw [takeWhile_cons_of_neg (by simpa using hoff)]
      exact (add_zero _).symm
    all_goals
      rw [ih, takeWhile_cons_of_pos (by simpa using hoff)]
      exact add_assoc _ _ _

/-- The amounts of all requests up to the first one that is not off-chain are freed. -/
theorem failOffChainNoChannel_freed (fromAddr toAddr : Address) (reqs : List FundsReq) :
    (failOffChainNoChannel active fromAddr toAddr reqs).freed =
      amounts (reqs.takeWhile (·.opts.offChain)) :=
  (refusing_run_freed 0 reqs ⟨0, 0, []⟩).trans (zero_add _)

theorem sumReqs_of_active (hactive : AllActive active) (reqs : List FundsReq) :
    sumReqs active reqs = ⟨amounts reqs, amounts (reqs.filter (!·.opts.reserve))⟩ := by
  have hfilter : reqs.filter (active .sum) = reqs :=
    filter_eq_self.mpr fun r _ => hactive .sum r
  unfold sumReqs
  rw [hfilter]

/-! ### The queue -/

/-- The task that the queue is merged into. -/
def queueTask (env : QueueEnv) (ca : ChannelAccessor) : TaskResult :=
  let reqs := mergedReqs env (filterQueue env ca)
  processTask env (filterQueue env ca) reqs (sumReqs env.active reqs).amt
    (sumReqs env.active reqs).avail

theorem mergedReqs_perm (env : QueueEnv) (ca : ChannelAccessor) :
    (mergedReqs env ca).Perm ca.fundsReqQueue := env.sorter.perm _ _

/-- There is nothing to pay, or the task waits, or it is finished. -/
theorem processQueue_cases (env : QueueEnv) (ca : ChannelAccessor) :
    let amt := (sumReqs env.active (mergedReqs env (filterQueue env ca))).amt
    (amt = 0 ∧ (processQueue env ca).1 = filterQueue env ca) ∨
      (amt ≠ 0 ∧ (queueTask env ca).res = none ∧ (processQueue env ca).1 = (queueTask env ca).ca) ∨
      (amt ≠ 0 ∧ ∃ res, (queueTask env ca).res = some res ∧
        (processQueue env ca).1 = (queueTask env ca).finish env.active res) := by
  intro amt
  unfold processQueue
  dsimp only
  split
  · next hnil =>
    have hreqs : mergedReqs env (filterQueue env ca) = [] :=
      (hnil ▸ mergedReqs_perm env (filterQueue env ca)).eq_nil
    exact .inl ⟨by show (sumReqs _ (mergedReqs _ _)).amt = 0; rw [hreqs]; rfl, rfl⟩
  · split
    · next hzero => exact .inl ⟨hzero, rfl⟩
    · next hamt =>
      right
      split
      · next hres => exact .inl ⟨hamt, hres, rfl⟩
      · next res hres => exact .inr ⟨hamt, res, hres, rfl⟩

/-! ### Events -/

/-- The queue, the answers and the charges stay as they are. -/
structure KeepsRequests (ca ca' : ChannelAccessor) : Prop where
  queue : ca'.fundsReqQueue = ca.fundsReqQueue
  answers : ca'.answers = ca.answers
  charges : ca'.charges = ca.charges
  nextReq : ca'.nextReq = ca.nextReq

/-- Requests are queued and processed, and no other event touches them. -/
theorem accessorStep_cases {ca ca' : ChannelAccessor} {event : AccessorEvent}
    (h : accessorStep ca event = some ca') :
    (∃ amt opts, event = .getPaych amt opts ∧ ca' = getPaych ca amt opts) ∨
      (∃ env, event = .processQueue env ∧ ca' = (processQueue env ca).1) ∨
      ((∀ env, event ≠ .processQueue env) ∧ KeepsRequests ca ca') := by
  cases event with
  | getPaych amt opts =>
    cases h
    exact .inl ⟨amt, opts, rfl, rfl⟩
  | processQueue env =>
    cases h
    exact .inr (.inl ⟨env, rfl, rfl⟩)
  | waitMsg mcid out =>
    obtain ⟨w, -, rfl⟩ := Option.map_eq_some_iff.mp h
    exact .inr (.inr ⟨fun _ => nofun, rfl, rfl, rfl, rfl⟩)
  | msgWaitComplete mcid =>
    obtain ⟨err, -, rfl⟩ := Option.map_eq_some_iff.mp h
    refine .inr (.inr ⟨fun _ => nofun, ?_⟩)
    unfold msgWaitComplete
    split <;> exact ⟨rfl, rfl, rfl, rfl⟩
  | getPaychWaitReady mcid =>
    cases h
    refine .inr (.inr ⟨fun _ => nofun, ?_⟩)
    unfold getPaychWaitReady
    split
    · exact ⟨rfl, rfl, rfl, rfl⟩
    · split <;> exact ⟨rfl, rfl, rfl, rfl⟩
  | settle id =>
    cases h
    exact .inr (.inr ⟨fun _ => nofun, rfl, rfl, rfl, rfl⟩)

end FundsLemmas

end OpenDsn.Paych
