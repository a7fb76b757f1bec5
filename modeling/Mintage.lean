import Mintage.HeaderChain.Sample
import Mintage.Json.Parser
import Mintage.Json.Printer
import Mintage.Node.Record
import Mintage.Node.Service
import Mintage.Params.Record
import Mintage.Node.Event
import Mintage.Rpc.ExternalMiner
import Mintage.Proofs.Amounts
import Mintage.Proofs.CoinLookup
import Mintage.Proofs.CoinSupply
import Mintage.Proofs.ExecutionRules
import Mintage.Proofs.MoneySupply
import Mintage.Proofs.CoinHistory
import Mintage.Proofs.ExactDecoding
import Mintage.Proofs.WireCodec
import Mintage.Proofs.CachedStates
import Mintage.Proofs.CacheTransparency
import Mintage.Proofs.VotingWindows
import Mintage.Proofs.StateMoves
import Mintage.Proofs.EnforcedRules
import Mintage.Proofs.MedianTime
import Mintage.Proofs.TerminalStates
import Mintage.Proofs.CandidateRuns
import Mintage.Proofs.ReservedValue
import Mintage.Proofs.TemplateLimits
import Mintage.Proofs.TemplateValidity
import Mintage.Proofs.VersionVotes
import Mintage.Proofs.TemplateVotes
import Mintage.Proofs.SelfVoting
import Mintage.Proofs.TemplateCapacity
import Mintage.Proofs.TemplateDecoding
import Mintage.Proofs.RebuiltBlocks
import Mintage.Proofs.NodeHistory
import Mintage.Proofs.DemandedTargets
import Mintage.Proofs.UtxoMap
import Mintage.Proofs.DeclaredRules
import Mintage.Proofs.TemplateTimes
import Mintage.Proofs.TimedOutStates
import Mintage.Proofs.ScaledTargets
import Mintage.Proofs.ScheduledChains
import Mintage.Proofs.PeriodTargets
import Mintage.Proofs.GreedySelection
import Mintage.Proofs.NonceInjection
import Mintage.Proofs.CanonicalBits
import Mintage.Proofs.ExactWork
import Mintage.Proofs.Emission
import Mintage.Proofs.TransactionIdentity
import Mintage.Proofs.TruncatedInput
import Mintage.Proofs.MerkleBinding
import Mintage.Proofs.CoinbaseHeights
import Mintage.Proofs.HashRateWindow
import Mintage.Proofs.LiveEntries
import Mintage.Proofs.ChainPositions
import Mintage.Proofs.ScriptPushes
