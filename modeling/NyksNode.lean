import NyksNode.Archival.CommonAncestor
import NyksNode.Archival.FileRecord
import NyksNode.Archival.MmrRefinement
import NyksNode.Archival.Spentness
import NyksNode.Archival.SyncChallenge
import NyksNode.Block.Adjustment
import NyksNode.Block.Guessing
import NyksNode.Composer.Acceptance
import NyksNode.Database.MapRefinement
import NyksNode.Database.VecCalls
import NyksNode.MainLoop.Proposals
import NyksNode.MainLoop.Solutions
import NyksNode.Miner.Flow
import NyksNode.MutatorSet.Aliasing
import NyksNode.MutatorSet.Consistency
import NyksNode.MutatorSet.OneByOne
import NyksNode.MutatorSet.Revert
import NyksNode.P2p.Connections
import NyksNode.P2p.PeerLoops
import NyksNode.P2p.Bans
import NyksNode.Peer.ForkReconciliation
import NyksNode.Peer.Response
import NyksNode.Upgrader.Submission
import NyksNode.Wallet.CoinUpdates
import NyksNode.Wallet.Eviction
import NyksNode.Wallet.Journal
import NyksNode.Wallet.Restart
import NyksNode.Wallet.Spending
