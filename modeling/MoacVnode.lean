import MoacVnode.Core.HeaderRewind
import MoacVnode.Core.HeadAgreement
import MoacVnode.Core.AtomicWrite
import MoacVnode.Core.ForkChoiceAgreement
import MoacVnode.Core.ChainIndexValidity
import MoacVnode.Consensus.Clique.SpamProtection
import MoacVnode.Consensus.Clique.TallyBound
import MoacVnode.Core.TxPoolNonces
import MoacVnode.Miner.UncleSelection
import MoacVnode.Vnode.ScsHandshake
import MoacVnode.Miner.PendingWork
import MoacVnode.Solidity.BondSolvency
import MoacVnode.Solidity.DeferredPayments
import MoacVnode.Solidity.ProposalExpiry
import MoacVnode.Solidity.ProposalVotes
import MoacVnode.Solidity.ProposalSettlement
import MoacVnode.Les.HeaderQueries
import MoacVnode.Les.ClientManager
import MoacVnode.Les.Retrieve
import MoacVnode.Accounts.Abi.RoundTripConverse
import MoacVnode.Mc.LogFilter
import MoacVnode.NetworkRelay.KnownMessages
import MoacVnode.NetworkRelay.NotificationRuns
import MoacVnode.NetworkRelay.RoleQueries
import MoacVnode.Vnode.SyncBlocks
import MoacVnode.Miner.FailedTransactions
import MoacVnode.Core.TxPoolRejection
import MoacVnode.Core.TxPoolFairness
import MoacVnode.Core.TxPoolReinjection
import MoacVnode.Consensus.Ethash.VerifyHeaders
import MoacVnode.Core.RecoveryScan
import MoacVnode.Core.TxPoolRepricing
import MoacVnode.Core.Contracts
import MoacVnode.Solidity.NodeSelection
import MoacVnode.Solidity.HoldingPool
import MoacVnode.Mc.PeerSets
import MoacVnode.Mc.Announcements
import MoacVnode.Mc.SubnetRelay
import MoacVnode.P2p.RandomNodes
import MoacVnode.Core.BloomGenerator
import MoacVnode.Core.DatabaseSchema
