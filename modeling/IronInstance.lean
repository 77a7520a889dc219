import IronInstance.Library.Runs
import IronInstance.Library.FiniteMap
import IronInstance.Library.Newest
import IronInstance.Library.Programs
import IronInstance.Codec
import IronInstance.Hex
import IronInstance.Uuid
import IronInstance.State
import IronInstance.StoreRuns
import IronInstance.Liveness
import IronInstance.Manifest
import IronInstance.Primitives
import IronInstance.Effects
import IronInstance.Credentials
import IronInstance.Enroll
import IronInstance.Revocation
import IronInstance.Manage
import IronInstance.Chat
import IronInstance.ChatRelay
import IronInstance.Library.Text
import IronInstance.Attestation
import IronInstance.Mtls
import IronInstance.Service
import IronInstance.Replay
import IronInstance.Membership
import IronInstance.Slots
import IronInstance.Library.TokenBucket
import IronInstance.RateLimit
import IronInstance.RateWindow
import IronInstance.Library.FileSystem
import IronInstance.Library.SymbolicLinks
import IronInstance.Artifacts
import IronInstance.Library.Traverse
import IronInstance.StorekitChain
import IronInstance.Library.Base64
import IronInstance.Base64
import IronInstance.Base64Forms
import IronInstance.HexMatching
import IronInstance.Library.Sha1
import IronInstance.Sha1
import IronInstance.UuidMatch
import IronInstance.GpuReport
import IronInstance.GpuEvidence
import IronInstance.Library.Blocks
import IronInstance.Pem
import IronInstance.PemBundles
import IronInstance.Library.Expansion
import IronInstance.TsmReport
import IronInstance.TsmEntries
import IronInstance.QuoteBinding
import IronInstance.Endpoints
import IronInstance.AttestationBudget
import IronInstance.ChatSessions
import IronInstance.ChatChannel
import IronInstance.FetchManifest
import IronInstance.Boot
import IronInstance.PinArtifacts
import IronInstance.AppleKeys
import IronInstance.Library.Sections
import IronInstance.LockSections
import IronInstance.RunVllm
