import OpenDsn.Chain.Burn
import OpenDsn.Chain.Coalescer
import OpenDsn.Api.ClientDeal
import OpenDsn.Mpool.Gateway
import OpenDsn.Mpool.Selection
import OpenDsn.Chain.WeightTie
import OpenDsn.State.Refinement
import OpenDsn.Exchange.RoundTrip
import OpenDsn.Mining.SlashFilter
import OpenDsn.Sync.Deferred
import OpenDsn.Paych.Conservation
import OpenDsn.Market.Completion
import OpenDsn.Sealer.Unseal
import OpenDsn.Paths.IndexLocks
import OpenDsn.Paths.Reserve
import OpenDsn.Sealer.Usage
import OpenDsn.Pipeline.NumConcurrent
import OpenDsn.Wdpost.SubmitHandler
import OpenDsn.Wdpost.RunCycle
import OpenDsn.Events.TipSetCache
import OpenDsn.Pipeline.BatchingExact
import OpenDsn.Pipeline.SnapUpgrade
import OpenDsn.Pipeline.UnsealedCid
import OpenDsn.Api.ProofInfo
import OpenDsn.Market.DealPublisher
import OpenDsn.Blockstore.AutobatchReads
import OpenDsn.Splitstore.Compaction
import OpenDsn.Backupds.Datastore
