import Exodus.Analysis.Agreement
import Exodus.Analysis.Announcements
import Exodus.Analysis.Appendability
import Exodus.Analysis.Assembly
import Exodus.Analysis.CanonicalForm
import Exodus.Analysis.CatchUp
import Exodus.Analysis.ClaimNumbers
import Exodus.Analysis.ClaimRetention
import Exodus.Analysis.CommittedSet
import Exodus.Analysis.Credit
import Exodus.Analysis.Dialling
import Exodus.Analysis.Election
import Exodus.Analysis.Equivocation
import Exodus.Analysis.FloatText
import Exodus.Analysis.Flooding
import Exodus.Analysis.ForkChoice
import Exodus.Analysis.ForkPoint
import Exodus.Analysis.FrameStreams
import Exodus.Analysis.Genesis
import Exodus.Analysis.Healing
import Exodus.Analysis.HttpBodies
import Exodus.Analysis.IdentityFile
import Exodus.Analysis.InferenceFanOut
import Exodus.Analysis.InferenceSlots
import Exodus.Analysis.LedgerLaws
import Exodus.Analysis.LedgerRuns
import Exodus.Analysis.LinkSafety
import Exodus.Analysis.Links
import Exodus.Analysis.NodeIds
import Exodus.Analysis.PeerSets
import Exodus.Analysis.Plausibility
import Exodus.Analysis.ProposalReuse
import Exodus.Analysis.PythonForm
import Exodus.Analysis.QueueCaps
import Exodus.Analysis.QueueRelease
import Exodus.Analysis.Quorums
import Exodus.Analysis.Redelivery
import Exodus.Analysis.Rejects
import Exodus.Analysis.Reorg
import Exodus.Analysis.Replies
import Exodus.Analysis.RewardGrowth
import Exodus.Analysis.RewardReport
import Exodus.Analysis.Rotation
import Exodus.Analysis.RoundProgress
import Exodus.Analysis.Sealing
import Exodus.Analysis.SeenWindow
import Exodus.Analysis.Shares
import Exodus.Analysis.Signers
import Exodus.Analysis.StoredBlocks
import Exodus.Analysis.SyncAnswers
import Exodus.Analysis.TamperEvidence
import Exodus.Analysis.Transit
import Exodus.Analysis.Views
import Exodus.Analysis.Voting
import Exodus.Interface.Adoption
import Exodus.Interface.Canonical
import Exodus.Interface.Chain
import Exodus.Interface.Decimals
import Exodus.Interface.Effects
import Exodus.Interface.Evidence
import Exodus.Interface.FanOutSpec
import Exodus.Interface.Handlers
import Exodus.Interface.HttpSpec
import Exodus.Interface.InferenceNet
import Exodus.Interface.Invariant
import Exodus.Interface.LedgerSpec
import Exodus.Interface.Network
import Exodus.Interface.Operations
import Exodus.Interface.Overlay
import Exodus.Interface.Python
import Exodus.Interface.Reference
import Exodus.Interface.Reorg
import Exodus.Interface.Sample
import Exodus.Interface.SampleChain
import Exodus.Interface.SampleInference
import Exodus.Interface.SampleNodes
import Exodus.Interface.TransportSpec
import Exodus.Interface.ValidationSpec
import Exodus.Interface.Wire
import Exodus.Library.Base32
import Exodus.Library.FirstMax
import Exodus.Library.FloatArith
import Exodus.Library.FloatOrder
import Exodus.Library.Framing
import Exodus.Library.Json
import Exodus.Library.JsonOrder
import Exodus.Library.Lines
import Exodus.Library.Links
import Exodus.Library.Log
import Exodus.Library.Machine
import Exodus.Library.Pool
import Exodus.Library.Quorum
import Exodus.Library.RealArith
import Exodus.Library.RoundRobin
import Exodus.Library.Table
import Exodus.Library.Text
import Exodus.Library.Window
import Exodus.Model.Accounting
import Exodus.Model.Connections
import Exodus.Model.Coordinator
import Exodus.Model.Crates
import Exodus.Model.Crypto
import Exodus.Model.FanOut
import Exodus.Model.Http
import Exodus.Model.Identity
import Exodus.Model.Ledger
import Exodus.Model.Messages
import Exodus.Model.ModelNames
import Exodus.Model.Models
import Exodus.Model.Protocol
import Exodus.Model.Replies
import Exodus.Model.Rewards
import Exodus.Model.Transport
import Exodus.Model.Validation
