import OpenDsn.Chain.Store
import OpenDsn.Lib.Intern
import OpenDsn.Mpool.Message

/-!
# Chain exchange

`chain/exchange`: a client asks for a number of tipsets from a head downwards, for their
headers, their messages, or both. The server collects them from its chain store
(`chain/store/messages.go` for the messages) until it has enough or is at the genesis.
The messages of a tipset are sent once each, with a list of indices for every block. The
client checks the answer against its request before it expands the messages again.

A pointer that may be nil is an `Option`. The client turns a panic while it checks an
answer into an error.
-/

namespace OpenDsn.Exchange

open Lib Chain Mpool

/-! ## Messages in the chain store -/

/-- The CID of a message list or of a `MsgMeta`. -/
abbrev MetaCid := Nat

structure MsgMeta where
  blsMessages : MetaCid
  secpkMessages : MetaCid

/-- What the chain blockstore has of messages. -/
structure MsgStore where
  msgMeta : MetaCid → Option MsgMeta
  readAMTCids : MetaCid → Option (List MsgCid)
  getMessage : MsgCid → Option Message
  getSignedMessage : MsgCid → Option SignedMessage

/-- What is read of headers besides the fields of `BlockHeader`. -/
structure ExchangeEnv extends StoreEnv where
  /-- `BlockHeader.Messages` -/
  messages : BlockHeader → MetaCid
  /-- Different VRF proofs have different digests. -/
  digest_inj : ∀ {a b : Ticket}, digest a = digest b → a = b

inductive MessageError
  /-- "failed to load msgmeta (%s)" -/
  | msgMeta (mmc : MetaCid)
  /-- "loading bls message cids for block" -/
  | blsCids
  /-- "loading secpk message cids for block" -/
  | secpkCids
  /-- "failed to get message: (%s):%d" -/
  | getMessage (c : MsgCid) (i : Nat)
  /-- "loading bls messages for block" -/
  | blsMessages (e : MessageError)
  /-- "loading secpk messages for block" -/
  | secpkMessages (e : MessageError)

def readMsgMetaCids (ms : MsgStore) (mmc : MetaCid) :
    Except MessageError (List MsgCid × List MsgCid) :=
  match ms.msgMeta mmc with
  | none => .error (.msgMeta mmc)
  | some msgmeta =>
      match ms.readAMTCids msgmeta.blsMessages, ms.readAMTCids msgmeta.secpkMessages with
      | none, _ => .error .blsCids
      | some _, none => .error .secpkCids
      | some blscids, some secpkcids => .ok (blscids, secpkcids)

/-- The loop of the two functions that load messages; `i` is the position. -/
def loadFromCids {M : Type} (get : MsgCid → Option M) :
    Nat → List MsgCid → Except MessageError (List M)
  | _, [] => .ok []
  | i, c :: rest =>
      match get c with
      | none => .error (.getMessage c i)
      | some m => (loadFromCids get (i + 1) rest).map (m :: ·)

def loadMessagesFromCids (ms : MsgStore) (cids : List MsgCid) :
    Except MessageError (List Message) :=
  loadFromCids ms.getMessage 0 cids

def loadSignedMessagesFromCids (ms : MsgStore) (cids : List MsgCid) :
    Except MessageError (List SignedMessage) :=
  loadFromCids ms.getSignedMessage 0 cids

def messagesForBlock (env : ExchangeEnv) (ms : MsgStore) (b : BlockHeader) :
    Except MessageError (List Message × List SignedMessage) :=
  match readMsgMetaCids ms (env.messages b) with
  | .error e => .error e
  | .ok (blscids, secpkcids) =>
      match loadMessagesFromCids ms blscids, loadSignedMessagesFromCids ms secpkcids with
      | .error e, _ => .error (.blsMessages e)
      | .ok _, .error e => .error (.secpkMessages e)
      | .ok blsmsgs, .ok secpkmsgs => .ok (blsmsgs, secpkmsgs)

/-! ## The protocol -/

def maxRequestLength : Nat := forkLengthThreshold

structure Request where
  head : List BlockCid
  length : Nat
  options : Nat

structure ParsedOptions where
  includeHeaders : Bool
  includeMessages : Bool

def ParsedOptions.noOptionsSet (options : ParsedOptions) : Bool :=
  options.includeHeaders = false ∧ options.includeMessages = false

/-- The bits `Headers` and `Messages`. -/
def parseOptions (optfield : Nat) : ParsedOptions where
  includeHeaders := optfield &&& 1 ≠ 0
  includeMessages := optfield &&& 2 ≠ 0

structure ValidatedRequest where
  head : TipSetKey
  length : Nat
  options : ParsedOptions

structure CompactedMessages where
  bls : List Message
  blsIncludes : List (List Nat)
  secpk : List SignedMessage
  secpkIncludes : List (List Nat)

structure BSTipSet where
  blocks : List (Option BlockHeader)
  messages : Option CompactedMessages

inductive Status
  | ok
  | partialChain
  | notFound
  | goAway
  | internalError
  | badRequest
  | other (code : Nat)
deriving DecidableEq

inductive CollectError
  /-- "failed loading tipset %s" -/
  | loading (tsk : TipSetKey) (e : LoadError)
  /-- "gather messages failed" -/
  | gather (e : MessageError)

/-- `Response.ErrorMessage` -/
inductive ErrorMessage
  | none
  /-- "no options set" -/
  | noOptions
  /-- "request length over maximum allowed (%d)" -/
  | overMaximum
  /-- "invalid request length of zero" -/
  | zeroLength
  /-- "no cids in request" -/
  | noCids
  | collect (e : CollectError)

structure Response where
  status : Status
  errorMessage : ErrorMessage
  chain : List (Option BSTipSet)

/-! ## The server -/

def badRequest (message : ErrorMessage) : Response := ⟨.badRequest, message, []⟩

def validateRequest (req : Request) : Except Response ValidatedRequest :=
  let options := parseOptions req.options
  if options.noOptionsSet then .error (badRequest .noOptions)
  else if req.length > maxRequestLength then .error (badRequest .overMaximum)
  else if req.length = 0 then .error (badRequest .zeroLength)
  else if req.head.length = 0 then .error (badRequest .noCids)
  else .ok ⟨req.head, req.length, options⟩

/-- The variables of the loop of `gatherMessages`. -/
structure Gathered where
  bls : Interned MsgCid
  blsincl : List (List Nat)
  secpk : Interned MsgCid
  secpkincl : List (List Nat)

def Gathered.start : Gathered := ⟨.empty, [], .empty, []⟩

/-- One block, with the CIDs of its messages. -/
def Gathered.addBlock (g : Gathered) (bc sc : List MsgCid) : Gathered :=
  match g.bls.addAll bc, g.secpk.addAll sc with
  | (bmi, bls), (smi, secpk) => ⟨bls, g.blsincl ++ [bmi], secpk, g.secpkincl ++ [smi]⟩

def gatherLoop (env : ExchangeEnv) (ms : MsgStore) :
    List BlockHeader → Gathered → Except MessageError Gathered
  | [], g => .ok g
  | block :: rest, g =>
      match readMsgMetaCids ms (env.messages block) with
      | .error e => .error e
      | .ok (bc, sc) => gatherLoop env ms rest (g.addBlock bc sc)

section

variable (env : ExchangeEnv) (cs : ChainStore) (ms : MsgStore)

def gatherMessages (ts : TipSet) : Except MessageError CompactedMessages :=
  match gatherLoop env ms ts.blks .start with
  | .error e => .error e
  | .ok g =>
      match loadMessagesFromCids ms g.bls.items, loadSignedMessagesFromCids ms g.secpk.items with
      | .error e, _ => .error e
      | .ok _, .error e => .error e
      | .ok blsmsgs, .ok secpkmsgs => .ok ⟨blsmsgs, g.blsincl, secpkmsgs, g.secpkincl⟩

/-- What is sent of one tipset. -/
def collectTipSet (options : ParsedOptions) (ts : TipSet) : Except MessageError BSTipSet :=
  let blocks := if options.includeHeaders then ts.blks.map some else []
  if options.includeMessages then
    match gatherMessages env ms ts with
    | .error e => .error e
    | .ok messages => .ok ⟨blocks, some messages⟩
  else .ok ⟨blocks, none⟩

/-- The loop of `collectChainSegment`; `more` is the number of tipsets that are asked for
after the one at `cur`. -/
def collectLoop (env : ExchangeEnv) (cs : ChainStore) (ms : MsgStore) (options : ParsedOptions) :
    Nat → TipSetKey → Except CollectError (List (Option BSTipSet))
  | more, cur =>
      match loadTipSet env.toStoreEnv cs cur with
      | .error e => .error (.loading cur e)
      | .ok ts =>
          match collectTipSet env ms options ts with
          | .error e => .error (.gather e)
          | .ok bst =>
              match more with
              | 0 => .ok [some bst]
              | more + 1 =>
                  if ts.height = 0 then .ok [some bst]
                  else (collectLoop env cs ms options more ts.parents).map (some bst :: ·)

def collectChainSegment (req : ValidatedRequest) : Except CollectError (List (Option BSTipSet)) :=
  collectLoop env cs ms req.options (req.length - 1) req.head

def serviceRequest (req : ValidatedRequest) : Response :=
  match collectChainSegment env cs ms req with
  | .error e => ⟨.internalError, .collect e, []⟩
  | .ok chain => ⟨if chain.length < req.length then .partialChain else .ok, .none, chain⟩

def processRequest (req : Request) : Response :=
  match validateRequest req with
  | .error res => res
  | .ok validReq => serviceRequest env cs ms validReq

end

/-! ## The client -/

inductive StatusError
  | notFound
  /-- "not handling 'go away' chainxchg responses yet" -/
  | goAway
  /-- "block sync peer errored: %s" -/
  | internalError (message : ErrorMessage)
  /-- "block sync request invalid: %s" -/
  | badRequest (message : ErrorMessage)
  /-- "unrecognized response code: %d" -/
  | unrecognized (code : Nat)

def Response.statusToError (res : Response) : Except StatusError Unit :=
  match res.status with
  | .ok | .partialChain => .ok ()
  | .notFound => .error .notFound
  | .goAway => .error .goAway
  | .internalError => .error (.internalError res.errorMessage)
  | .badRequest => .error (.badRequest res.errorMessage)
  | .other code => .error (.unrecognized code)

inductive ProcessError
  | status (e : StatusError)
  /-- "nothing was requested" -/
  | nothingRequested
  /-- "got no chain in successful response" -/
  | noChain
  /-- "got longer response (%d) than requested (%d)" -/
  | longer (resLength length : Nat)
  /-- "got less than requested without a proper status: %d" -/
  | less (status : Status)
  /-- "response with nil tipset in pos %d" -/
  | nilTipSet (i : Nat)
  /-- "tipset with nil block in pos %d" -/
  | nilBlock (blockIdx : Nat)
  /-- "invalid tipset blocks at height (head - %d)" -/
  | invalidBlocks (i : Nat) (e : TipSetError)
  /-- "returned chain head does not match request" -/
  | headMismatch
  /-- "tipsets are not connected at height (head - %d)/(head - %d)" -/
  | notConnected (i : Nat)
  /-- "no messages included for tipset at height (head - %d)" -/
  | noMessages (i : Nat)
  /-- "not enought tipsets provided for message response validation, needed %d, have %d" -/
  | notEnoughTipSets (needed have_ : Nat)
  /-- "BlsIncludes (%d) does not match number of blocks (%d)" -/
  | blsIncludes (n blocksNum : Nat)
  /-- "SecpkIncludes (%d) does not match number of blocks (%d)" -/
  | secpkIncludes (n blocksNum : Nat)
  /-- "index in BlsIncludes (%d) exceeds number of messages (%d)" -/
  | blsIndex (mi n : Nat)
  /-- "index in SecpkIncludes (%d) exceeds number of messages (%d)" -/
  | secpkIndex (mi n : Nat)
  /-- "process response error: %s", from a panic -/
  | recovered

structure ValidatedResponse where
  tipsets : List TipSet
  messages : List CompactedMessages

/-- The length of the chain that was returned. -/
def checkLength (req : Request) (res : Response) : Except ProcessError Unit :=
  let resLength := res.chain.length
  if resLength = 0 then .error .noChain
  else if resLength > req.length then .error (.longer resLength req.length)
  else if resLength < req.length ∧ res.status ≠ .partialChain then .error (.less res.status)
  else .ok ()

/-- The blocks of a tipset, none of them nil. -/
def presentBlocks : Nat → List (Option BlockHeader) → Except ProcessError (List BlockHeader)
  | _, [] => .ok []
  | blockIdx, none :: _ => .error (.nilBlock blockIdx)
  | blockIdx, some b :: rest => (presentBlocks (blockIdx + 1) rest).map (b :: ·)

def extractTipSets (env : ExchangeEnv) :
    Nat → List (Option BSTipSet) → Except ProcessError (List TipSet)
  | _, [] => .ok []
  | i, none :: _ => .error (.nilTipSet i)
  | i, some bst :: rest => do
      let blks ← presentBlocks 0 bst.blocks
      let ts ← (newTipSet env.toStoreEnv blks).mapError (.invalidBlocks i)
      let tss ← extractTipSets env (i + 1) rest
      return ts :: tss

/-- `TipSet.IsChildOf` -/
def isChildOf (ts parent : TipSet) : Bool :=
  cidArrsEqual ts.parents parent.cids ∧ ts.height > parent.height

def checkConnected : Nat → List TipSet → Except ProcessError Unit
  | i, ts :: parent :: rest =>
      if isChildOf ts parent then checkConnected (i + 1) (parent :: rest)
      else .error (.notConnected i)
  | _, _ => .ok ()

def checkHead (req : Request) : List TipSet → Except ProcessError Unit
  | [] => .error .recovered
  | head :: _ => if cidArrsEqual head.cids req.head then .ok () else .error .headMismatch

/-- The part of `processResponse` about headers. -/
def checkHeaders (env : ExchangeEnv) (req : Request) (chain : List (Option BSTipSet)) :
    Except ProcessError (List TipSet) := do
  let tss ← extractTipSets env 0 chain
  checkHead req tss
  checkConnected 0 tss
  return tss

def extractMessages : Nat → List (Option BSTipSet) → Except ProcessError (List CompactedMessages)
  | _, [] => .ok []
  | _, none :: _ => .error .recovered
  | i, some bst :: rest =>
      match bst.messages with
      | none => .error (.noMessages i)
      | some msgs => (extractMessages (i + 1) rest).map (msgs :: ·)

/-- `int(mi)` of an `uint64`. -/
def toInt (mi : Nat) : Int := if mi < 2 ^ 63 then mi else mi - 2 ^ 64

/-- The indices of one block, of one kind of messages. -/
def checkIndices (exceeds : Nat → Nat → ProcessError) (n : Nat) :
    List Nat → Except ProcessError Unit
  | [] => .ok ()
  | mi :: rest => if toInt mi ≥ n then .error (exceeds mi n) else checkIndices exceeds n rest

/-- The indices of all blocks. -/
def checkIncludes (msgs : CompactedMessages) :
    List (List Nat) → List (List Nat) → Except ProcessError Unit
  | bmi :: blsIncludes, smi :: secpkIncludes => do
      checkIndices .blsIndex msgs.bls.length bmi
      checkIndices .secpkIndex msgs.secpk.length smi
      checkIncludes msgs blsIncludes secpkIncludes
  | _, _ => .ok ()

def checkMessages (blocksNum : Nat) (msgs : CompactedMessages) : Except ProcessError Unit :=
  if msgs.blsIncludes.length ≠ blocksNum then
    .error (.blsIncludes msgs.blsIncludes.length blocksNum)
  else if msgs.secpkIncludes.length ≠ blocksNum then
    .error (.secpkIncludes msgs.secpkIncludes.length blocksNum)
  else checkIncludes msgs msgs.blsIncludes msgs.secpkIncludes

def validateCompressedIndices : List (Option BSTipSet) → Except ProcessError Unit
  | [] => .ok ()
  | some ⟨blocks, some msgs⟩ :: rest => do
      checkMessages blocks.length msgs
      validateCompressedIndices rest
  | _ :: _ => .error .recovered

/-- The answer together with the blocks that the caller has provided. -/
def withBlocks (chain : List (Option BSTipSet)) (tipsets : List TipSet) : List (Option BSTipSet) :=
  chain.zipWith
    (fun resChain ts => resChain.map fun bst => ⟨ts.blks.map some, bst.messages⟩) tipsets

/-- The indices are checked against the headers of the answer or of the caller. -/
def checkCompressed (options : ParsedOptions) (chain : List (Option BSTipSet))
    (tipsets : List TipSet) : Except ProcessError Unit :=
  if options.includeHeaders then validateCompressedIndices chain
  else if tipsets.length < chain.length then
    .error (.notEnoughTipSets chain.length tipsets.length)
  else validateCompressedIndices (withBlocks chain tipsets)

/-- The part of `processResponse` about messages. -/
def checkAllMessages (options : ParsedOptions) (chain : List (Option BSTipSet))
    (tipsets : List TipSet) : Except ProcessError (List CompactedMessages) := do
  let msgs ← extractMessages 0 chain
  checkCompressed options chain tipsets
  return msgs

def checkOptions (options : ParsedOptions) : Except ProcessError Unit :=
  if options.noOptionsSet then .error .nothingRequested else .ok ()

/-- A part of the answer that is read if it was asked for. -/
def ifIncluded {α : Type} (included : Bool) (part : Except ProcessError (List α)) :
    Except ProcessError (List α) :=
  if included then part else .ok []

def processResponse (env : ExchangeEnv) (req : Request) (res : Response) (tipsets : List TipSet) :
    Except ProcessError ValidatedResponse := do
  res.statusToError.mapError .status
  let options := parseOptions req.options
  checkOptions options
  checkLength req res
  let tss ← ifIncluded options.includeHeaders (checkHeaders env req res.chain)
  let msgs ← ifIncluded options.includeMessages (checkAllMessages options res.chain tipsets)
  return ⟨tss, msgs⟩

/-! ## Full tipsets -/

structure FullBlock where
  header : BlockHeader
  blsMessages : List Message
  secpkMessages : List SignedMessage

structure FullTipSet where
  blocks : List FullBlock

/-- The blocks of a tipset with their messages, where every index is in range. -/
def expandBlocks (msgs : CompactedMessages) :
    List BlockHeader → List (List Nat) → List (List Nat) → Option (List FullBlock)
  | [], _, _ => some []
  | b :: rest, bmi :: blsIncludes, smi :: secpkIncludes => do
      let bls ← select msgs.bls bmi
      let secpk ← select msgs.secpk smi
      let fbs ← expandBlocks msgs rest blsIncludes secpkIncludes
      return ⟨b, bls, secpk⟩ :: fbs
  | _ :: _, _, _ => none

def expandTipSets : List TipSet → List CompactedMessages → Option (List FullTipSet)
  | ts :: tss, msgs :: rest => do
      let blocks ← expandBlocks msgs ts.blks msgs.blsIncludes msgs.secpkIncludes
      let ftss ← expandTipSets tss rest
      return ⟨blocks⟩ :: ftss
  | _, _ => some []

/-- `none` where an index is out of range. -/
def ValidatedResponse.toFullTipSets (res : ValidatedResponse) : Option (List FullTipSet) :=
  if res.tipsets.length = 0 ∨ res.tipsets.length ≠ res.messages.length then some []
  else expandTipSets res.tipsets res.messages

end OpenDsn.Exchange
