import Fluidic.Consensus.Finality
import Fluidic.Consensus.Interference
import Fluidic.Consensus.Settlement
import Fluidic.Consensus.Conservation
import Fluidic.Consensus.Replay
import Fluidic.Consensus.QuorumAgreement
import Fluidic.Consensus.QuorumStrength
import Fluidic.Consensus.Tallies
import Fluidic.Consensus.Slashing
import Fluidic.Consensus.LedgerAgreement
import Fluidic.Consensus.SupplyCap
import Fluidic.Consensus.Ingestion
import Fluidic.Field.CommutativeBatch
import Fluidic.Field.BatchOutcome
import Fluidic.Consensus.CommutativePhase
import Fluidic.Consensus.CommutativeSettlement
import Fluidic.Consensus.CommutativeRoot
import Fluidic.Api.State
import Fluidic.Api.Routes
import Fluidic.Node.MeshNode
import Fluidic.Node.KeyAuthenticity
import Fluidic.Consensus.AdmissionOrder
import Fluidic.Consensus.Convergence
import Fluidic.Crypto.TransferBinding
import Fluidic.Api.DomainRoutes
import Fluidic.Evm.Lifecycle
import Fluidic.Persistence.Snapshot
import Fluidic.Persistence.RoundTrip
import Fluidic.Persistence.CausalBookkeeping
import Fluidic.Persistence.StrandedTransactions
import Fluidic.Evm.Conservation
import Fluidic.Persistence.Equivocation
import Fluidic.Consensus.Sections
import Fluidic.Consensus.LostUpdates
import Fluidic.Persistence.ConsistentCut
import Fluidic.Api.SignedMessages
import Fluidic.Library.HashTree
import Fluidic.State.MerkleBinding
import Fluidic.Operator.RootBinding
import Fluidic.Consensus.ResultRoots
import Fluidic.Network.Handshake
import Fluidic.Network.NetworkNode
import Fluidic.Library.ChunkedStream
import Fluidic.Network.Packet
import Fluidic.Network.TcpGossip
import Fluidic.Library.CircularBuffer
import Fluidic.Network.Buffer
import Fluidic.Value.DecayCurve
import Fluidic.Consensus.NttTransform
import Fluidic.Consensus.NttInverse
import Fluidic.Consensus.ArithmeticRange
import Fluidic.Consensus.AccountClock
import Fluidic.Consensus.ActivityGrace
import Fluidic.Consensus.NewAccounts
import Fluidic.Node.SwapAtomicity
import Fluidic.Field.DecayAccounting
import Fluidic.Operator.RewardSplit
import Fluidic.Consensus.FeeConservation
import Fluidic.Consensus.DerivedClocks
import Fluidic.Consensus.SpendCliques
import Fluidic.Value.Stream
import Fluidic.Value.MetabolicStream
import Fluidic.Network.RingStorage
import Fluidic.Value.Spectrum
import Fluidic.Persistence.SlashHistory
import Fluidic.Operator.RewardDust
import Fluidic.Api.SwapQuote
import Fluidic.Consensus.StakeMoves
import Fluidic.Consensus.RejectedRequests
import Fluidic.Api.RewardClaims
import Fluidic.Consensus.MinimalReady
import Fluidic.Library.Positional
import Fluidic.Library.RunRefinement
import Fluidic.Evm.Blocks
import Fluidic.Consensus.Operations
import Fluidic.Api.Json
import Fluidic.Api.EvmRpc
import Fluidic.Node.RunningNode
import Fluidic.Node.Refinement
import Fluidic.Node.ChainView
import Fluidic.Consensus.PlainOperations
import Fluidic.Node.OperatorStake
import Fluidic.Node.Mesh
import Fluidic.Node.MeshStakes
import Fluidic.Node.Dashboard
import Fluidic.Node.MeshShifts
import Fluidic.Node.Restart
import Fluidic.Node.Lives
import Fluidic.Network.GossipLoop
import Fluidic.Node.SyncClient
