import PassVault.Core.Assembler
import PassVault.Core.DagUnion
import PassVault.Core.ChunkFrames
import PassVault.Core.Divergence
import PassVault.Core.Lineage
import PassVault.Core.Reachability
import PassVault.Identity.PairingCodes
import PassVault.Identity.ShortAuth
import PassVault.Identity.TrustStore
import PassVault.Kdbx.Snapshot
import PassVault.Lib.Async
import PassVault.Services.Combining
import PassVault.Services.Conflicts
import PassVault.Services.FastForward
import PassVault.Services.FileWatches
import PassVault.Services.InStep
import PassVault.Services.Invitations
import PassVault.Services.Presence
import PassVault.Services.Recorder
import PassVault.Services.Sessions
import PassVault.Services.Tracking
import PassVault.Services.Verdicts
import PassVault.Services.WriteBack
import PassVault.Signaling.Membership
import PassVault.Signaling.RateLimit
import PassVault.Signaling.Relaying
import PassVault.Signaling.Http
import PassVault.Storage.Atomicity
import PassVault.Storage.AppFile
import PassVault.Storage.AtomicWrite
import PassVault.Storage.SettingsStore
import PassVault.Storage.Transactions
import PassVault.Storage.VaultFileWatcher
import PassVault.Storage.WebSqlite
import PassVault.Sync.Agreement
import PassVault.Transport.BridgeSocket
import PassVault.Transport.BridgeRooms
import PassVault.Transport.Dialing
import PassVault.Sync.Backpressure
import PassVault.Sync.BeforeAuth
import PassVault.Sync.CallbackErrors
import PassVault.Sync.Codec
import PassVault.Sync.Conformance
import PassVault.Sync.ControlInbox
import PassVault.Sync.CrashSafety
import PassVault.Sync.FirstWriter
import PassVault.Sync.Held
import PassVault.Sync.HistoryViews
import PassVault.Sync.Household
import PassVault.Sync.Ingest
import PassVault.Sync.LostUpdates
import PassVault.Sync.Outbound
import PassVault.Sync.Requests
import PassVault.Sync.Syncable
import PassVault.Sync.Transfers
import PassVault.Sync.VaultIsolation
import PassVault.Ui.App
