import RsNano.BlockProcessing.BacklogScan
import RsNano.BlockProcessing.BoundedBacklog
import RsNano.BlockProcessing.OrderedLocals
import RsNano.Bootstrap.Agreement
import RsNano.Bootstrap.CandidateInvariant
import RsNano.Bootstrap.FrontierChecker
import RsNano.Bootstrap.QueueCoherence
import RsNano.Bootstrap.RunningQueryContainer
import RsNano.Bootstrap.ScanCoverage
import RsNano.Consensus.BoundedHashMap
import RsNano.Consensus.FinalVoteEligibility
import RsNano.Consensus.PriorityBucket
import RsNano.Consensus.Quorum
import RsNano.Consensus.VoteCacheRanking
import RsNano.Consensus.VoteOrderRun
import RsNano.Consensus.VoteSpacingRun
import RsNano.Ledger.CementBatch
import RsNano.Ledger.Convergence
import RsNano.Ledger.DependentBlocksFinder
import RsNano.Ledger.EpochRules
import RsNano.Ledger.RollbackTotal
import RsNano.Ledger.UndoInsert
import RsNano.Ledger.WeightRebuild
import RsNano.Messages.Framing
import RsNano.Messages.Preproposal
import RsNano.Network.ConnectionLimits
import RsNano.Network.ExcludedPeers
import RsNano.StoreLmdb.BlockIds
import RsNano.StoreLmdb.UpgradeRecovery
import RsNano.Types.AccountText
import RsNano.Utils.QueueHistory
import RsNano.Wallet.PromiseResolution
