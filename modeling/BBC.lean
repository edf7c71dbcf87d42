import BBC.Chain.ArrivalOrder
import BBC.Chain.Commitment
import BBC.Chain.Reorganization
import BBC.Chain.Catchup
import BBC.Consensus.NonceSearch
import BBC.Mempool.Selection
import BBC.Mempool.Greedy
import BBC.Mempool.NonceLimit
import BBC.Node.Template
import BBC.Node.LostPeer
import BBC.Node.MiningDebts
import BBC.Node.MiningView
import BBC.Node.Wire
import BBC.Node.RelayNetwork
import BBC.Node.AdvertisedTip
import BBC.Node.Partners
import BBC.Node.Convergence
import BBC.Network.SessionGate
import BBC.Node.StaleWork
import BBC.Storage.LogLanguage
import BBC.Storage.PersistentPool
import BBC.Storage.Reconciliation
import BBC.App.Admissions
import BBC.App.Lifetimes
import BBC.App.MinedFile
import BBC.Network.Framing
import BBC.Network.GhostPeers
import BBC.Network.Duplicates
import BBC.Network.Targets
import BBC.Node.StalePool
import BBC.Node.LocatorMatch
import BBC.Config.Host
import BBC.Rpc.Token
import BBC.Wallet.WalletFile
import BBC.Node.Answers
