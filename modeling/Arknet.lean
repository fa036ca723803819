import Arknet.Lib.Machine
import Arknet.Lib.Column
import Arknet.Lib.PrefixScan
import Arknet.Lib.Catalog
import Arknet.Lib.Overlay
import Arknet.Lib.Marks
import Arknet.Lib.Trace
import Arknet.Lib.Runs
import Arknet.Lib.Channel
import Arknet.Lib.Borsh
import Arknet.Lib.HashTree
import Arknet.Lib.Dedup
import Arknet.Lib.Selection
import Arknet.Lib.LeafMap
import Arknet.Lib.Ledger
import Arknet.Lib.Lots
import Arknet.Lib.Schnorr
import Arknet.Lib.Disk
import Arknet.Chain.Types
import Arknet.Chain.Encoding
import Arknet.Chain.Rows
import Arknet.Chain.StateTree
import Arknet.Chain.State
import Arknet.Chain.Crypto
import Arknet.Crypto.Merkle
import Arknet.Chain.Genesis
import Arknet.Chain.Bootstrap
import Arknet.Chain.CircuitBreaker
import Arknet.Chain.StakeApply
import Arknet.Chain.Apply
import Arknet.Chain.Effects
import Arknet.Chain.Reads
import Arknet.Staking.Slashing
import Arknet.Staking.ValidatorSet
import Arknet.Payments.Emission
import Arknet.Payments.Rewards
import Arknet.Payments.Pricing
import Arknet.Governance.Tally
import Arknet.Consensus.Mempool
import Arknet.Consensus.PoolIndex
import Arknet.Consensus.Commit
import Arknet.Consensus.BlockBuilder
import Arknet.Consensus.Run
import Arknet.Consensus.Engine
import Arknet.Consensus.Signing
import Arknet.Consensus.NetworkBridge
import Arknet.Consensus.Validators
import Arknet.Receipts.Batch
import Arknet.Node.ComputeRole
import Arknet.Verifier.Dispute
import Arknet.Crypto.Vrf
import Arknet.Verifier.Selection
import Arknet.Inference.Session
import Arknet.Compute.Attestation
import Arknet.Compute.Job
import Arknet.Compute.Stream
import Arknet.Compute.Wire
import Arknet.Compute.Runner
import Arknet.Verifier.Reexec
import Arknet.Router.Failover
import Arknet.Router.Intake
import Arknet.Router.Candidate
import Arknet.Router.Accept
import Arknet.Router.QuotaGossip
import Arknet.Node.L2Dispatch
import Arknet.Network.Swarm
import Arknet.Node.InferenceHandler
import Arknet.Sdk.Client
import Arknet.ModelManager.Gguf
import Arknet.ModelManager.Download
import Arknet.ModelManager.Puller
import Arknet.ModelManager.Cache
import Arknet.Node.Correlation
import Arknet.Laws.Slash
import Arknet.Laws.Invariants
import Arknet.Laws.Supply
import Arknet.Laws.BuildAgreement
import Arknet.Laws.Authorization
import Arknet.Laws.DecidedValue
import Arknet.Laws.StakeOwnership
import Arknet.Laws.Batching
import Arknet.Laws.Escrow
import Arknet.Laws.Settlement
import Arknet.Laws.Registry
import Arknet.Laws.Replay
import Arknet.Laws.Rotation
import Arknet.Laws.Disputes
import Arknet.Laws.Proposals
import Arknet.Laws.Votes
import Arknet.Laws.Deposits
import Arknet.Laws.PendingRewards
import Arknet.Laws.DecidedBlock
import Arknet.Laws.Linkage
import Arknet.Laws.BaseFee
import Arknet.Laws.Admission
import Arknet.Laws.Emission
import Arknet.Laws.Anchoring
import Arknet.Laws.ReceiptPipeline
import Arknet.Laws.DisputePipeline
import Arknet.Laws.HonestCompute
import Arknet.Laws.StateTree
import Arknet.Laws.Streaming
import Arknet.Laws.Failover
import Arknet.Laws.Swarm
import Arknet.Laws.Correlation
import Arknet.Laws.ConsensusWire
import Arknet.Laws.ResponseFormat
import Arknet.Laws.Billing
import Arknet.Laws.MerkleBinding
import Arknet.Laws.MerkleProofs
import Arknet.Laws.CircuitBreaker
import Arknet.Laws.QuotaGossip
import Arknet.Laws.Mempool
import Arknet.Laws.PoolConflicts
import Arknet.Laws.BlockGas
import Arknet.Laws.ModelCache
import Arknet.Laws.NonceOrder
import Arknet.Laws.DelegatorSplit
import Arknet.Laws.FeeMarket
import Arknet.Laws.Tally
import Arknet.Laws.Lifecycle
import Arknet.Laws.FreeTier
import Arknet.Laws.Consumption
import Arknet.Laws.FailedIntake
import Arknet.Laws.ChainValidators
import Arknet.Laws.VerifierSelection
import Arknet.Laws.Cooldown
import Arknet.Laws.Bootstrap
import Arknet.Laws.TxIndex
import Arknet.Laws.StakeConservation
import Arknet.Node.ServeInference
import Arknet.Laws.PaidJob
import Arknet.Laws.RequestReplay
import Arknet.Laws.RemoteRequests
import Arknet.Laws.GgufHeader
import Arknet.Laws.GgufDepth
import Arknet.Laws.Pieces
import Arknet.Laws.SessionText
import Arknet.Laws.SessionAdmission
import Arknet.Laws.CommitReturns
import Arknet.Laws.Pricing
import Arknet.Laws.CompositeKeys
import Arknet.Laws.Puller
import Arknet.Laws.CacheBound
import Arknet.Network.PeerBook
import Arknet.Lib.Latest
import Arknet.Node.Discovery
import Arknet.Laws.Discovery
import Arknet.Laws.PeerBook
import Arknet.Sdk.Session
import Arknet.Laws.ClientRequests
import Arknet.Lib.Turns
import Arknet.Consensus.Proposer
import Arknet.Laws.ProposerTurns
import Arknet.Lib.Timers
import Arknet.Consensus.Timeouts
import Arknet.Laws.Timeouts
import Arknet.Node.VerifierRole
import Arknet.Laws.VerifierRole
import Arknet.Lib.Hex
import Arknet.Node.TxLookup
import Arknet.Laws.TxLookup
import Arknet.Node.ChatCompletions
import Arknet.Laws.ChatCompletions
import Arknet.Node.HexText
import Arknet.Node.Boot
import Arknet.Laws.Restarts
import Arknet.Laws.HexText
import Arknet.Lib.Frames
import Arknet.Network.InferenceProto
import Arknet.Laws.InferenceExchange
import Arknet.Laws.BuiltChain
import Arknet.Laws.FairLaunch
