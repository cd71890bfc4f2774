import OpenDsn.Lib.Table

/-!
# The state machine of a sector

`storage/pipeline/fsm.go`, `fsm_events.go`, `sector_state.go` and `types.go`: the states of a
sector, the events with what they write into `SectorInfo`, the table of planners, and `Plan`, which
is handed the events that wait and reports how many of them it has processed. What the handlers do
between the calls is not part of it: they send further events.
-/

namespace OpenDsn.Pipeline.Fsm

open Lib

/-! ## Sectors -/

/-- `SectorState`; `other` stands for a string that is none of the constants. -/
inductive SectorState
  | undefinedSectorState | empty | waitDeals | addPiece | packing | getTicket | preCommit1
  | preCommit2 | preCommitting | preCommitWait | submitPreCommitBatch | preCommitBatchWait
  | waitSeed | committing | commitFinalize | commitFinalizeFailed | submitCommit | commitWait
  | submitCommitAggregate | commitAggregateWait | finalizeSector | proving | available
  | snapDealsWaitDeals | snapDealsAddPiece | snapDealsPacking | updateReplica
  | proveReplicaUpdate | submitReplicaUpdate | replicaUpdateWait | finalizeReplicaUpdate
  | updateActivating | releaseSectorKey | receiveSector | failedUnrecoverable | addPieceFailed
  | sealPreCommit1Failed | sealPreCommit2Failed | preCommitFailed | computeProofFailed
  | remoteCommitFailed | commitFailed | packingFailed | finalizeFailed | dealsExpired
  | recoverDealIDs | snapDealsAddPieceFailed | snapDealsDealsExpired | snapDealsRecoverDealIDs
  | abortUpgrade | replicaUpdateFailed | releaseSectorKeyFailed | finalizeReplicaUpdateFailed
  | faulty | faultReported | faultedFinal | terminating | terminateWait | terminateFinality
  | terminateFailed | removing | removeFailed | removed
  | other (name : String)
deriving DecidableEq

/-- `abi.PieceInfo`. -/
structure PieceInfo where
  size : Nat
  pieceCID : Nat
deriving DecidableEq

/-- `PieceDealInfo`. -/
structure PieceDealInfo where
  publishCid : Option Nat
  dealID : Nat
  dealProposal : Nat
  startEpoch : Int
  endEpoch : Int
  keepUnsealed : Bool
deriving DecidableEq

structure SectorPiece where
  piece : PieceInfo
  /-- None for filler pieces. -/
  dealInfo : Option PieceDealInfo
deriving DecidableEq

/-- `SectorInfo` without its log. A `ReturnState` is the name of a state, and no return state is
the empty one. -/
structure SectorInfo where
  state : SectorState
  sectorNumber : Nat
  sectorType : Int
  creationTime : Int
  pieces : List SectorPiece
  ticketValue : List UInt8
  ticketEpoch : Int
  preCommit1Out : List UInt8
  commD : Option Nat
  commR : Option Nat
  proof : List UInt8
  preCommitDeposit : Int
  preCommitMessage : Option Nat
  preCommitTipSet : List Nat
  preCommit2Fails : UInt64
  seedValue : List UInt8
  seedEpoch : Int
  commitMessage : Option Nat
  invalidProofs : UInt64
  ccUpdate : Bool
  ccPieces : List SectorPiece
  updateSealed : Option Nat
  updateUnsealed : Option Nat
  replicaUpdateProof : List UInt8
  replicaUpdateMessage : Option Nat
  faultReportMsg : Option Nat
  ret : SectorState
  terminateMessage : Option Nat
  terminatedAt : Int
  remoteDataUnsealed : Option Nat
  remoteDataSealed : Option Nat
  remoteDataCache : Option Nat
  remoteCommit1Endpoint : String
  remoteCommit2Endpoint : String
  remoteSealingDoneEndpoint : String
  remoteDataFinalized : Bool
  lastErr : String
deriving DecidableEq

/-- The zero value. -/
def SectorInfo.zero : SectorInfo where
  state := .undefinedSectorState
  sectorNumber := 0
  sectorType := 0
  creationTime := 0
  pieces := []
  ticketValue := []
  ticketEpoch := 0
  preCommit1Out := []
  commD := none
  commR := none
  proof := []
  preCommitDeposit := 0
  preCommitMessage := none
  preCommitTipSet := []
  preCommit2Fails := 0
  seedValue := []
  seedEpoch := 0
  commitMessage := none
  invalidProofs := 0
  ccUpdate := false
  ccPieces := []
  updateSealed := none
  updateUnsealed := none
  replicaUpdateProof := []
  replicaUpdateMessage := none
  faultReportMsg := none
  ret := .undefinedSectorState
  terminateMessage := none
  terminatedAt := 0
  remoteDataUnsealed := none
  remoteDataSealed := none
  remoteDataCache := none
  remoteCommit1Endpoint := ""
  remoteCommit2Endpoint := ""
  remoteSealingDoneEndpoint := ""
  remoteDataFinalized := false
  lastErr := ""

/-! ## Events -/

/-- What `reflect.TypeOf` tells apart. -/
inductive EventType
  | sectorRestart | sectorFatalError | sectorForceState | sectorStart | sectorStartCC
  | sectorAddPiece | sectorPieceAdded | sectorAddPieceFailed | sectorRetryWaitDeals
  | sectorStartPacking | sectorPacked | sectorTicket | sectorOldTicket | sectorPreCommit1
  | sectorPreCommit2 | sectorPreCommitBatch | sectorPreCommitBatchSent | sectorPreCommitLanded
  | sectorSealPreCommit1Failed | sectorSealPreCommit2Failed | sectorChainPreCommitFailed
  | sectorPreCommitted | sectorSeedReady | sectorRemoteCommit1Failed | sectorRemoteCommit2Failed
  | sectorComputeProofFailed | sectorCommitFailed | sectorRetrySubmitCommit | sectorDealsExpired
  | sectorTicketExpired | sectorCommitted | sectorProofReady | sectorSubmitCommitAggregate
  | sectorCommitSubmitted | sectorCommitAggregateSent | sectorProving | sectorFinalized
  | sectorFinalizedAvailable | sectorRetryFinalize | sectorFinalizeFailed | sectorMarkForUpdate
  | sectorStartCCUpdate | sectorReplicaUpdate | sectorProveReplicaUpdate
  | sectorReplicaUpdateSubmitted | sectorReplicaUpdateLanded | sectorUpdateActive
  | sectorKeyReleased | sectorRetrySealPreCommit1 | sectorRetrySealPreCommit2
  | sectorRetryPreCommit | sectorRetryWaitSeed | sectorRetryPreCommitWait
  | sectorRetryComputeProof | sectorRetryInvalidProof | sectorRetryCommitWait
  | sectorInvalidDealIDs | sectorUpdateDealIDs | sectorRetryReplicaUpdate
  | sectorRetryProveReplicaUpdate | sectorUpdateReplicaFailed | sectorProveReplicaUpdateFailed
  | sectorAbortUpgrade | sectorRevertUpgradeToProving | sectorRetrySubmitReplicaUpdateWait
  | sectorRetrySubmitReplicaUpdate | sectorSubmitReplicaUpdateFailed | sectorReleaseKeyFailed
  | sectorFaulty | sectorFaultReported | sectorFaultedFinal | sectorTerminate | sectorTerminating
  | sectorTerminated | sectorTerminateFailed | sectorRemove | sectorRemoved | sectorRemoveFailed
  | sectorReceive | sectorReceived
deriving DecidableEq

/-- The events with the data that `apply` reads. `now` is the time of the clock at which the piece
is added. -/
inductive Event
  | sectorRestart | sectorFatalError
  | sectorForceState (state : SectorState)
  | sectorStart (id : Nat) (sectorType : Int)
  | sectorStartCC (id : Nat) (sectorType : Int)
  | sectorAddPiece (now : Int)
  | sectorPieceAdded (newPieces : List SectorPiece)
  | sectorAddPieceFailed | sectorRetryWaitDeals | sectorStartPacking
  | sectorPacked (fillerPieces : List PieceInfo)
  | sectorTicket (value : List UInt8) (epoch : Int)
  | sectorOldTicket
  | sectorPreCommit1 (out : List UInt8)
  | sectorPreCommit2 (sealed unsealed : Nat)
  | sectorPreCommitBatch
  | sectorPreCommitBatchSent (message : Nat)
  | sectorPreCommitLanded (tipSet : List Nat)
  | sectorSealPreCommit1Failed | sectorSealPreCommit2Failed | sectorChainPreCommitFailed
  | sectorPreCommitted (message : Nat) (deposit : Int)
  | sectorSeedReady (value : List UInt8) (epoch : Int)
  | sectorRemoteCommit1Failed | sectorRemoteCommit2Failed | sectorComputeProofFailed
  | sectorCommitFailed | sectorRetrySubmitCommit | sectorDealsExpired | sectorTicketExpired
  | sectorCommitted (proof : List UInt8)
  | sectorProofReady (proof : List UInt8)
  | sectorSubmitCommitAggregate
  | sectorCommitSubmitted (message : Nat)
  | sectorCommitAggregateSent (message : Nat)
  | sectorProving | sectorFinalized | sectorFinalizedAvailable | sectorRetryFinalize
  | sectorFinalizeFailed | sectorMarkForUpdate | sectorStartCCUpdate
  | sectorReplicaUpdate (sealed unsealed : Nat)
  | sectorProveReplicaUpdate (proof : List UInt8)
  | sectorReplicaUpdateSubmitted (message : Nat)
  | sectorReplicaUpdateLanded | sectorUpdateActive | sectorKeyReleased
  | sectorRetrySealPreCommit1 | sectorRetrySealPreCommit2 | sectorRetryPreCommit
  | sectorRetryWaitSeed | sectorRetryPreCommitWait | sectorRetryComputeProof
  | sectorRetryInvalidProof | sectorRetryCommitWait
  | sectorInvalidDealIDs (ret : SectorState)
  | sectorUpdateDealIDs (updates : Table Int Nat)
  | sectorRetryReplicaUpdate | sectorRetryProveReplicaUpdate | sectorUpdateReplicaFailed
  | sectorProveReplicaUpdateFailed | sectorAbortUpgrade | sectorRevertUpgradeToProving
  | sectorRetrySubmitReplicaUpdateWait | sectorRetrySubmitReplicaUpdate
  | sectorSubmitReplicaUpdateFailed | sectorReleaseKeyFailed | sectorFaulty
  | sectorFaultReported (reportMsg : Nat)
  | sectorFaultedFinal | sectorTerminate
  | sectorTerminating (message : Option Nat)
  | sectorTerminated (terminatedAt : Int)
  | sectorTerminateFailed | sectorRemove | sectorRemoved | sectorRemoveFailed
  | sectorReceive (info : SectorInfo)
  | sectorReceived

namespace Event

def type : Event → EventType
  | .sectorRestart => .sectorRestart
  | .sectorFatalError => .sectorFatalError
  | .sectorForceState .. => .sectorForceState
  | .sectorStart .. => .sectorStart
  | .sectorStartCC .. => .sectorStartCC
  | .sectorAddPiece .. => .sectorAddPiece
  | .sectorPieceAdded .. => .sectorPieceAdded
  | .sectorAddPieceFailed => .sectorAddPieceFailed
  | .sectorRetryWaitDeals => .sectorRetryWaitDeals
  | .sectorStartPacking => .sectorStartPacking
  | .sectorPacked .. => .sectorPacked
  | .sectorTicket .. => .sectorTicket
  | .sectorOldTicket => .sectorOldTicket
  | .sectorPreCommit1 .. => .sectorPreCommit1
  | .sectorPreCommit2 .. => .sectorPreCommit2
  | .sectorPreCommitBatch => .sectorPreCommitBatch
  | .sectorPreCommitBatchSent .. => .sectorPreCommitBatchSent
  | .sectorPreCommitLanded .. => .sectorPreCommitLanded
  | .sectorSealPreCommit1Failed => .sectorSealPreCommit1Failed
  | .sectorSealPreCommit2Failed => .sectorSealPreCommit2Failed
  | .sectorChainPreCommitFailed => .sectorChainPreCommitFailed
  | .sectorPreCommitted .. => .sectorPreCommitted
  | .sectorSeedReady .. => .sectorSeedReady
  | .sectorRemoteCommit1Failed => .sectorRemoteCommit1Failed
  | .sectorRemoteCommit2Failed => .sectorRemoteCommit2Failed
  | .sectorComputeProofFailed => .sectorComputeProofFailed
  | .sectorCommitFailed => .sectorCommitFailed
  | .sectorRetrySubmitCommit => .sectorRetrySubmitCommit
  | .sectorDealsExpired => .sectorDealsExpired
  | .sectorTicketExpired => .sectorTicketExpired
  | .sectorCommitted .. => .sectorCommitted
  | .sectorProofReady .. => .sectorProofReady
  | .sectorSubmitCommitAggregate => .sectorSubmitCommitAggregate
  | .sectorCommitSubmitted .. => .sectorCommitSubmitted
  | .sectorCommitAggregateSent .. => .sectorCommitAggregateSent
  | .sectorProving => .sectorProving
  | .sectorFinalized => .sectorFinalized
  | .sectorFinalizedAvailable => .sectorFinalizedAvailable
  | .sectorRetryFinalize => .sectorRetryFinalize
  | .sectorFinalizeFailed => .sectorFinalizeFailed
  | .sectorMarkForUpdate => .sectorMarkForUpdate
  | .sectorStartCCUpdate => .sectorStartCCUpdate
  | .sectorReplicaUpdate .. => .sectorReplicaUpdate
  | .sectorProveReplicaUpdate .. => .sectorProveReplicaUpdate
  | .sectorReplicaUpdateSubmitted .. => .sectorReplicaUpdateSubmitted
  | .sectorReplicaUpdateLanded => .sectorReplicaUpdateLanded
  | .sectorUpdateActive => .sectorUpdateActive
  | .sectorKeyReleased => .sectorKeyReleased
  | .sectorRetrySealPreCommit1 => .sectorRetrySealPreCommit1
  | .sectorRetrySealPreCommit2 => .sectorRetrySealPreCommit2
  | .sectorRetryPreCommit => .sectorRetryPreCommit
  | .sectorRetryWaitSeed => .sectorRetryWaitSeed
  | .sectorRetryPreCommitWait => .sectorRetryPreCommitWait
  | .sectorRetryComputeProof => .sectorRetryComputeProof
  | .sectorRetryInvalidProof => .sectorRetryInvalidProof
  | .sectorRetryCommitWait => .sectorRetryCommitWait
  | .sectorInvalidDealIDs .. => .sectorInvalidDealIDs
  | .sectorUpdateDealIDs .. => .sectorUpdateDealIDs
  | .sectorRetryReplicaUpdate => .sectorRetryReplicaUpdate
  | .sectorRetryProveReplicaUpdate => .sectorRetryProveReplicaUpdate
  | .sectorUpdateReplicaFailed => .sectorUpdateReplicaFailed
  | .sectorProveReplicaUpdateFailed => .sectorProveReplicaUpdateFailed
  | .sectorAbortUpgrade => .sectorAbortUpgrade
  | .sectorRevertUpgradeToProving => .sectorRevertUpgradeToProving
  | .sectorRetrySubmitReplicaUpdateWait => .sectorRetrySubmitReplicaUpdateWait
  | .sectorRetrySubmitReplicaUpdate => .sectorRetrySubmitReplicaUpdate
  | .sectorSubmitReplicaUpdateFailed => .sectorSubmitReplicaUpdateFailed
  | .sectorReleaseKeyFailed => .sectorReleaseKeyFailed
  | .sectorFaulty => .sectorFaulty
  | .sectorFaultReported .. => .sectorFaultReported
  | .sectorFaultedFinal => .sectorFaultedFinal
  | .sectorTerminate => .sectorTerminate
  | .sectorTerminating .. => .sectorTerminating
  | .sectorTerminated .. => .sectorTerminated
  | .sectorTerminateFailed => .sectorTerminateFailed
  | .sectorRemove => .sectorRemove
  | .sectorRemoved => .sectorRemoved
  | .sectorRemoveFailed => .sectorRemoveFailed
  | .sectorReceive .. => .sectorReceive
  | .sectorReceived => .sectorReceived

/-- The `globalMutator`s. -/
def isGlobal : Event → Bool
  | sectorRestart | sectorFatalError | sectorForceState _ | sectorTerminate | sectorRemove => true
  | _ => false

/-- `Ignorable`. -/
def isIgnorable : Event → Bool
  | sectorStartPacking => true
  | _ => false

/-- `applyGlobal`, and whether processing is to be interrupted. -/
def applyGlobal (s : SectorInfo) : Event → SectorInfo × Bool
  | sectorFatalError => (s, true)
  | sectorForceState state => ({ s with state := state }, true)
  | sectorTerminate => ({ s with state := .terminating }, true)
  | sectorRemove => ({ s with state := .removing }, true)
  | _ => (s, false)

/-- `state.Pieces[i].DealInfo.DealID = id`, which panics where there is no such piece or it has no
deal. -/
def setDealID (pieces : List SectorPiece) (update : Int × Nat) : Option (List SectorPiece) :=
  if update.1 < 0 then none
  else
    match pieces[update.1.toNat]? with
    | some ⟨piece, some deal⟩ =>
        some (pieces.set update.1.toNat ⟨piece, some { deal with dealID := update.2 }⟩)
    | _ => none

/-- `apply`, or none if it panics. The events that are not listed write nothing. -/
def apply (s : SectorInfo) : Event → Option SectorInfo
  | sectorStart id sectorType | sectorStartCC id sectorType =>
      some { s with sectorNumber := id, sectorType := sectorType }
  | sectorAddPiece now =>
      some (if s.creationTime = 0 then { s with creationTime := now } else s)
  | sectorPieceAdded newPieces => some { s with pieces := s.pieces ++ newPieces }
  | sectorPacked fillerPieces =>
      some { s with pieces := s.pieces ++ fillerPieces.map (⟨·, none⟩) }
  | sectorTicket value epoch => some { s with ticketEpoch := epoch, ticketValue := value }
  | sectorPreCommit1 out => some { s with preCommit1Out := out, preCommit2Fails := 0 }
  | sectorPreCommit2 sealed unsealed => some { s with commD := some unsealed, commR := some sealed }
  | sectorPreCommitBatchSent message => some { s with preCommitMessage := some message }
  | sectorPreCommitLanded tipSet => some { s with preCommitTipSet := tipSet }
  | sectorSealPreCommit1Failed => some { s with invalidProofs := 0, preCommit2Fails := 0 }
  | sectorSealPreCommit2Failed =>
      some { s with invalidProofs := 0, preCommit2Fails := s.preCommit2Fails + 1 }
  | sectorPreCommitted message deposit =>
      some { s with preCommitMessage := some message, preCommitDeposit := deposit }
  | sectorSeedReady value epoch => some { s with seedEpoch := epoch, seedValue := value }
  | sectorCommitted proof | sectorProofReady proof => some { s with proof := proof }
  | sectorCommitSubmitted message | sectorCommitAggregateSent message =>
      some { s with commitMessage := some message }
  | sectorStartCCUpdate => some { s with ccUpdate := true, ccPieces := s.pieces, pieces := [] }
  | sectorReplicaUpdate sealed unsealed =>
      some { s with updateSealed := some sealed, updateUnsealed := some unsealed }
  | sectorProveReplicaUpdate proof => some { s with replicaUpdateProof := proof }
  | sectorReplicaUpdateSubmitted message => some { s with replicaUpdateMessage := some message }
  | sectorRetryComputeProof | sectorRetryInvalidProof =>
      some { s with invalidProofs := s.invalidProofs + 1 }
  | sectorInvalidDealIDs ret => some { s with ret := ret }
  | sectorUpdateDealIDs updates =>
      (updates.pairs.foldlM setDealID s.pieces).map fun pieces => { s with pieces := pieces }
  | sectorRevertUpgradeToProving =>
      some
        { s with
          ccUpdate := false
          updateSealed := none
          updateUnsealed := none
          replicaUpdateProof := []
          replicaUpdateMessage := none
          pieces := s.ccPieces
          ccPieces := [] }
  | sectorFaultReported reportMsg => some { s with faultReportMsg := some reportMsg }
  | sectorTerminating message => some { s with terminateMessage := message }
  | sectorTerminated terminatedAt => some { s with terminatedAt := terminatedAt }
  | sectorReceive info => some info
  | _ => some s

end Event

/-! ## Planners -/

/-- What follows the `apply` of a transition. -/
inductive Next
  /-- To a state. -/
  | enter (state : SectorState)
  /-- No change, and the planner goes on. -/
  | more
  /-- To the return state. -/
  | back
deriving DecidableEq

structure Transition where
  mutator : EventType
  next : Next
deriving DecidableEq

def on (mutator : EventType) (next : SectorState) : Transition := ⟨mutator, .enter next⟩

/-- `onWithCB`: the callback notifies the remote side, and does not write the sector. -/
def onWithCB (mutator : EventType) (next : SectorState) : Transition := ⟨mutator, .enter next⟩

def apply (mutator : EventType) : Transition := ⟨mutator, .more⟩

def onReturning (mutator : EventType) : Transition := ⟨mutator, .back⟩

inductive Planner
  | planOne (ts : List Transition)
  | planOneOrIgnore (ts : List Transition)
  | planCommitting
  | final
  | finalRemoved
deriving DecidableEq

def fsmPlanners : SectorState → Option Planner
  | .receiveSector => some (.planOne [onReturning .sectorReceived])
  | .undefinedSectorState => some (.planOne [
      on .sectorStart .waitDeals,
      on .sectorStartCC .packing,
      on .sectorReceive .receiveSector])
  | .empty => some (.planOne [
      on .sectorAddPiece .addPiece,
      on .sectorStartPacking .packing])
  | .waitDeals => some (.planOne [
      on .sectorAddPiece .addPiece,
      on .sectorStartPacking .packing])
  | .addPiece => some (.planOne [
      on .sectorPieceAdded .waitDeals,
      apply .sectorStartPacking,
      apply .sectorAddPiece,
      on .sectorAddPieceFailed .addPieceFailed])
  | .packing => some (.planOne [on .sectorPacked .getTicket])
  | .getTicket => some (.planOne [
      on .sectorTicket .preCommit1,
      on .sectorCommitFailed .commitFailed])
  | .preCommit1 => some (.planOne [
      on .sectorPreCommit1 .preCommit2,
      on .sectorSealPreCommit1Failed .sealPreCommit1Failed,
      on .sectorDealsExpired .dealsExpired,
      on .sectorInvalidDealIDs .recoverDealIDs,
      on .sectorOldTicket .getTicket])
  | .preCommit2 => some (.planOne [
      on .sectorPreCommit2 .preCommitting,
      on .sectorSealPreCommit2Failed .sealPreCommit2Failed,
      on .sectorSealPreCommit1Failed .sealPreCommit1Failed])
  | .preCommitting => some (.planOne [
      on .sectorPreCommitBatch .submitPreCommitBatch,
      on .sectorPreCommitted .preCommitWait,
      on .sectorSealPreCommit1Failed .sealPreCommit1Failed,
      on .sectorChainPreCommitFailed .preCommitFailed,
      on .sectorPreCommitLanded .waitSeed,
      on .sectorDealsExpired .dealsExpired,
      on .sectorInvalidDealIDs .recoverDealIDs])
  | .submitPreCommitBatch => some (.planOne [
      on .sectorPreCommitBatchSent .preCommitBatchWait,
      on .sectorSealPreCommit1Failed .sealPreCommit1Failed,
      on .sectorChainPreCommitFailed .preCommitFailed,
      on .sectorPreCommitLanded .waitSeed,
      on .sectorDealsExpired .dealsExpired,
      on .sectorInvalidDealIDs .recoverDealIDs])
  | .preCommitBatchWait => some (.planOne [
      on .sectorChainPreCommitFailed .preCommitFailed,
      on .sectorPreCommitLanded .waitSeed,
      on .sectorRetryPreCommit .preCommitting])
  | .preCommitWait => some (.planOne [
      on .sectorChainPreCommitFailed .preCommitFailed,
      on .sectorPreCommitLanded .waitSeed,
      on .sectorRetryPreCommit .preCommitting])
  | .waitSeed => some (.planOne [
      on .sectorSeedReady .committing,
      on .sectorChainPreCommitFailed .preCommitFailed])
  | .committing => some .planCommitting
  | .commitFinalize => some (.planOne [
      on .sectorFinalized .submitCommit,
      on .sectorFinalizedAvailable .submitCommit,
      on .sectorFinalizeFailed .commitFinalizeFailed])
  | .submitCommit => some (.planOne [
      on .sectorCommitSubmitted .commitWait,
      on .sectorSubmitCommitAggregate .submitCommitAggregate,
      on .sectorCommitFailed .commitFailed])
  | .submitCommitAggregate => some (.planOne [
      on .sectorCommitAggregateSent .commitAggregateWait,
      on .sectorCommitFailed .commitFailed,
      on .sectorRetrySubmitCommit .submitCommit])
  | .commitWait => some (.planOne [
      on .sectorProving .finalizeSector,
      on .sectorCommitFailed .commitFailed,
      on .sectorRetrySubmitCommit .submitCommit])
  | .commitAggregateWait => some (.planOne [
      on .sectorProving .finalizeSector,
      on .sectorCommitFailed .commitFailed,
      on .sectorRetrySubmitCommit .submitCommit])
  | .finalizeSector => some (.planOne [
      onWithCB .sectorFinalized .proving,
      onWithCB .sectorFinalizedAvailable .available,
      on .sectorFinalizeFailed .finalizeFailed])
  | .snapDealsWaitDeals => some (.planOne [
      on .sectorAddPiece .snapDealsAddPiece,
      on .sectorStartPacking .snapDealsPacking,
      on .sectorAbortUpgrade .abortUpgrade])
  | .snapDealsAddPiece => some (.planOne [
      on .sectorPieceAdded .snapDealsWaitDeals,
      apply .sectorStartPacking,
      apply .sectorAddPiece,
      on .sectorAddPieceFailed .snapDealsAddPieceFailed,
      on .sectorAbortUpgrade .abortUpgrade])
  | .snapDealsPacking => some (.planOne [
      on .sectorPacked .updateReplica,
      on .sectorAbortUpgrade .abortUpgrade])
  | .updateReplica => some (.planOne [
      on .sectorReplicaUpdate .proveReplicaUpdate,
      on .sectorUpdateReplicaFailed .replicaUpdateFailed,
      on .sectorDealsExpired .snapDealsDealsExpired,
      on .sectorInvalidDealIDs .snapDealsRecoverDealIDs,
      on .sectorAbortUpgrade .abortUpgrade])
  | .proveReplicaUpdate => some (.planOne [
      on .sectorProveReplicaUpdate .finalizeReplicaUpdate,
      on .sectorProveReplicaUpdateFailed .replicaUpdateFailed,
      on .sectorDealsExpired .snapDealsDealsExpired,
      on .sectorInvalidDealIDs .snapDealsRecoverDealIDs,
      on .sectorAbortUpgrade .abortUpgrade])
  | .finalizeReplicaUpdate => some (.planOne [
      on .sectorFinalized .submitReplicaUpdate,
      on .sectorFinalizeFailed .finalizeReplicaUpdateFailed])
  | .submitReplicaUpdate => some (.planOne [
      on .sectorReplicaUpdateSubmitted .replicaUpdateWait,
      on .sectorSubmitReplicaUpdateFailed .replicaUpdateFailed])
  | .replicaUpdateWait => some (.planOne [
      on .sectorReplicaUpdateLanded .updateActivating,
      on .sectorSubmitReplicaUpdateFailed .replicaUpdateFailed,
      on .sectorAbortUpgrade .abortUpgrade])
  | .updateActivating => some (.planOne [on .sectorUpdateActive .releaseSectorKey])
  | .releaseSectorKey => some (.planOne [
      on .sectorKeyReleased .proving,
      on .sectorReleaseKeyFailed .releaseSectorKeyFailed])
  | .addPieceFailed => some (.planOne [
      on .sectorRetryWaitDeals .waitDeals,
      apply .sectorStartPacking,
      apply .sectorAddPiece])
  | .sealPreCommit1Failed => some (.planOne [on .sectorRetrySealPreCommit1 .preCommit1])
  | .sealPreCommit2Failed => some (.planOne [
      on .sectorRetrySealPreCommit1 .preCommit1,
      on .sectorRetrySealPreCommit2 .preCommit2])
  | .preCommitFailed => some (.planOne [
      on .sectorRetryPreCommit .preCommitting,
      on .sectorRetryPreCommitWait .preCommitWait,
      on .sectorRetryWaitSeed .waitSeed,
      on .sectorSealPreCommit1Failed .sealPreCommit1Failed,
      on .sectorPreCommitLanded .waitSeed,
      onWithCB .sectorDealsExpired .dealsExpired,
      on .sectorInvalidDealIDs .recoverDealIDs])
  | .computeProofFailed => some (.planOne [
      on .sectorRetryComputeProof .committing,
      on .sectorSealPreCommit1Failed .sealPreCommit1Failed])
  | .remoteCommitFailed => some (.planOne [on .sectorRetryComputeProof .committing])
  | .commitFinalizeFailed => some (.planOne [on .sectorRetryFinalize .commitFinalize])
  | .commitFailed => some (.planOne [
      on .sectorSealPreCommit1Failed .sealPreCommit1Failed,
      on .sectorRetryWaitSeed .waitSeed,
      on .sectorRetryComputeProof .committing,
      on .sectorRetryInvalidProof .committing,
      on .sectorRetryPreCommitWait .preCommitWait,
      on .sectorChainPreCommitFailed .preCommitFailed,
      on .sectorRetryPreCommit .preCommitting,
      on .sectorRetryCommitWait .commitWait,
      on .sectorRetrySubmitCommit .submitCommit,
      onWithCB .sectorDealsExpired .dealsExpired,
      on .sectorInvalidDealIDs .recoverDealIDs,
      onWithCB .sectorTicketExpired .removing])
  | .finalizeFailed => some (.planOne [on .sectorRetryFinalize .finalizeSector])
  | .packingFailed => some (.planOne [])
  | .dealsExpired => some (.planOne [])
  | .recoverDealIDs => some (.planOne [onReturning .sectorUpdateDealIDs])
  | .snapDealsAddPieceFailed => some (.planOne [
      on .sectorRetryWaitDeals .snapDealsWaitDeals,
      apply .sectorStartPacking,
      apply .sectorAddPiece,
      on .sectorAbortUpgrade .abortUpgrade])
  | .snapDealsDealsExpired => some (.planOne [on .sectorAbortUpgrade .abortUpgrade])
  | .snapDealsRecoverDealIDs => some (.planOne [
      on .sectorUpdateDealIDs .submitReplicaUpdate,
      on .sectorAbortUpgrade .abortUpgrade])
  | .abortUpgrade => some (.planOneOrIgnore [on .sectorRevertUpgradeToProving .proving])
  | .replicaUpdateFailed => some (.planOne [
      on .sectorRetrySubmitReplicaUpdateWait .replicaUpdateWait,
      on .sectorRetrySubmitReplicaUpdate .submitReplicaUpdate,
      on .sectorRetryReplicaUpdate .updateReplica,
      on .sectorRetryProveReplicaUpdate .proveReplicaUpdate,
      on .sectorInvalidDealIDs .snapDealsRecoverDealIDs,
      on .sectorDealsExpired .snapDealsDealsExpired,
      on .sectorAbortUpgrade .abortUpgrade])
  | .releaseSectorKeyFailed => some (.planOne [on .sectorUpdateActive .releaseSectorKey])
  | .finalizeReplicaUpdateFailed =>
      some (.planOne [on .sectorRetryFinalize .finalizeReplicaUpdate])
  | .proving => some (.planOne [
      on .sectorFaultReported .faultReported,
      on .sectorFaulty .faulty,
      on .sectorMarkForUpdate .available])
  | .available => some (.planOne [
      on .sectorStartCCUpdate .snapDealsWaitDeals,
      on .sectorAbortUpgrade .proving])
  | .terminating => some (.planOne [
      on .sectorTerminating .terminateWait,
      on .sectorTerminateFailed .terminateFailed])
  | .terminateWait => some (.planOne [
      on .sectorTerminated .terminateFinality,
      on .sectorTerminateFailed .terminateFailed])
  | .terminateFinality => some (.planOne [on .sectorTerminateFailed .terminateFailed])
  | .terminateFailed => some (.planOne [])
  | .removing => some (.planOneOrIgnore [
      on .sectorRemoved .removed,
      on .sectorRemoveFailed .removeFailed])
  | .removeFailed => some (.planOne [])
  | .faulty => some (.planOne [on .sectorFaultReported .faultReported])
  | .faultReported => some .final
  | .faultedFinal => some .final
  | .removed => some .finalRemoved
  | .failedUnrecoverable => some .final
  | .other _ => none

/-- What a round of the loop of a planner comes to. -/
inductive Outcome
  | panics
  /-- The event is processed, and the loop goes on. -/
  | more (s : SectorInfo)
  /-- The event is processed, and the planner returns. -/
  | stop (s : SectorInfo)
  /-- The event is processed, and the planner returns an error. -/
  | reject (s : SectorInfo)
  /-- The planner returns an error, and the event is not processed. -/
  | keep (s : SectorInfo)

/-- The second function of a transition. -/
def Next.run (s : SectorInfo) : Next → Outcome
  | enter state => .stop { s with state := state }
  | more => .more s
  | back =>
      if s.ret = .undefinedSectorState then .reject s
      else .stop { s with state := s.ret, ret := .undefinedSectorState }

/-- One round of `planOne`. -/
def planOneBody (ts : List Transition) (s : SectorInfo) (e : Event) : Outcome :=
  if e.isGlobal then .stop (e.applyGlobal s).1
  else
    match ts.find? fun t => t.mutator = e.type with
    | some t =>
        match e.apply s with
        | none => .panics
        | some s' => t.next.run s'
    | none => if e.isIgnorable then .more s else .reject s

/-- One round of `planCommitting`. -/
def planCommittingBody (s : SectorInfo) (e : Event) : Outcome :=
  if e.isGlobal then
    let (s', interrupt) := e.applyGlobal s
    if interrupt then .stop s' else .more s'
  else
    match e with
    | .sectorCommitted proof => .more { s with proof := proof, state := .submitCommit }
    | .sectorProofReady proof => .more { s with proof := proof, state := .commitFinalize }
    | .sectorSeedReady value epoch =>
        if epoch = s.seedEpoch ∧ value = s.seedValue then .more s
        else .stop { s with seedEpoch := epoch, seedValue := value, state := .committing }
    | .sectorComputeProofFailed => .more { s with state := .computeProofFailed }
    | .sectorRemoteCommit1Failed | .sectorRemoteCommit2Failed =>
        .more { s with state := .remoteCommitFailed }
    | .sectorSealPreCommit1Failed => .more { s with state := .sealPreCommit1Failed }
    | .sectorCommitFailed => .more { s with state := .commitFailed }
    | .sectorRetryCommitWait => .more { s with state := .commitWait }
    | _ => .keep s

/-- What a planner returns, with the sector as it leaves it. -/
structure Planned where
  info : SectorInfo
  processed : Nat
  failed : Bool

/-- The loop of a planner over the events, of which `n` were processed. None if it panics. -/
def loop (body : SectorInfo → Event → Outcome) (n : Nat) :
    List Event → SectorInfo → Option Planned
  | [], s => some ⟨s, n, false⟩
  | e :: es, s =>
      match body s e with
      | .panics => none
      | .more s' => loop body (n + 1) es s'
      | .stop s' => some ⟨s', n + 1, false⟩
      | .reject s' => some ⟨s', n + 1, true⟩
      | .keep s' => some ⟨s', n, true⟩

def Planner.run (events : List Event) (s : SectorInfo) : Planner → Option Planned
  | planOne ts => loop (planOneBody ts) 0 events s
  | planOneOrIgnore ts =>
      (loop (planOneBody ts) 0 events s).map fun r => { r with failed := false }
  | planCommitting => loop planCommittingBody 0 events s
  | final =>
      match events with
      | [] => some ⟨s, 0, true⟩
      | e :: _ => if e.isGlobal then some ⟨(e.applyGlobal s).1, 1, false⟩ else some ⟨s, 0, true⟩
  | finalRemoved => some ⟨s, events.length, false⟩

/-! ## `plan` -/

/-- The planner for the state. Without one, a single global event goes to one with no
transitions. -/
def plannerFor (events : List Event) (s : SectorInfo) : Option Planner :=
  match fsmPlanners s.state with
  | some p => some p
  | none =>
      match events with
      | [e] => if e.isGlobal then some (.planOne []) else none
      | _ => none

/-- What is decided after the planner has returned without an error: a sector leaves
`PackingFailed`, and in `ReleaseSectorKeyFailed` no event counts as processed. -/
def decideNext (r : Planned) : SectorInfo × Nat :=
  if r.info.state = .packingFailed then ({ r.info with state := .dealsExpired }, r.processed)
  else if r.info.state = .releaseSectorKeyFailed then (r.info, 0)
  else (r.info, r.processed)

/-- `Plan`: the sector afterwards and the number of events that are reported as processed. -/
def plan (events : List Event) (s : SectorInfo) : Option (SectorInfo × Nat) :=
  match plannerFor events s with
  | none => some (s, 0)
  | some p =>
      match p.run events s with
      | none => none
      | some r => some (if r.failed then (r.info, r.processed) else decideNext r)

end OpenDsn.Pipeline.Fsm
