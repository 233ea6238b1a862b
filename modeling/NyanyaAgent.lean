import NyanyaAgent.Artifacts.Checked
import NyanyaAgent.Artifacts.Distribution
import NyanyaAgent.Artifacts.Manifest
import NyanyaAgent.Bridges.Homes
import NyanyaAgent.Bridges.Telegram
import NyanyaAgent.Cli.State
import NyanyaAgent.Commands.Reconcile
import NyanyaAgent.EnvFile.Token
import NyanyaAgent.Feeds.Offset
import NyanyaAgent.Feeds.Receipts
import NyanyaAgent.FileTree.Copy
import NyanyaAgent.FileTree.Place
import NyanyaAgent.Invariants.History
import NyanyaAgent.Memory.Recall
import NyanyaAgent.Operations.Notices
import NyanyaAgent.Redaction.Credentials
import NyanyaAgent.Redaction.Matches
import NyanyaAgent.Redaction.Redact
import NyanyaAgent.Redaction.Scan
import NyanyaAgent.Redaction.Stable
import NyanyaAgent.Relational.Retained
import NyanyaAgent.Safety.ApplyAdmission
import NyanyaAgent.Safety.ApplyOnce
import NyanyaAgent.Safety.ApprovalUse
import NyanyaAgent.Safety.ArtifactManifest
import NyanyaAgent.Safety.AuditConservation
import NyanyaAgent.Safety.BulkCancel
import NyanyaAgent.Safety.ClaimExclusion
import NyanyaAgent.Safety.CommandWatch
import NyanyaAgent.Safety.ContextIsolation
import NyanyaAgent.Safety.DashboardToken
import NyanyaAgent.Safety.DeclaredTransitions
import NyanyaAgent.Safety.Distribution
import NyanyaAgent.Safety.DraftConfinement
import NyanyaAgent.Safety.DraftDelta
import NyanyaAgent.Safety.DraftFeedback
import NyanyaAgent.Safety.DraftQuota
import NyanyaAgent.Safety.DraftVersions
import NyanyaAgent.Safety.EnvReaders
import NyanyaAgent.Safety.EnvUpdates
import NyanyaAgent.Safety.FileAuthority
import NyanyaAgent.Safety.HomeWorkspaces
import NyanyaAgent.Safety.IngressOnce
import NyanyaAgent.Safety.IntentTotality
import NyanyaAgent.Safety.LedgerHistory
import NyanyaAgent.Safety.LegacyHold
import NyanyaAgent.Safety.LocalQueue
import NyanyaAgent.Safety.LogConservation
import NyanyaAgent.Safety.MessageSplitting
import NyanyaAgent.Safety.Migrations
import NyanyaAgent.Safety.NoReplay
import NyanyaAgent.Safety.Notices
import NyanyaAgent.Safety.OfficeCoverage
import NyanyaAgent.Safety.OutputSegments
import NyanyaAgent.Safety.PlanLifecycle
import NyanyaAgent.Safety.Preimages
import NyanyaAgent.Safety.ProcessOwnership
import NyanyaAgent.Safety.ProviderPayload
import NyanyaAgent.Safety.RecoveryAgreement
import NyanyaAgent.Safety.ResultDelivery
import NyanyaAgent.Safety.ResultFence
import NyanyaAgent.Safety.SecretRedaction
import NyanyaAgent.Safety.SlotRecovery
import NyanyaAgent.Safety.SpecRoundTrip
import NyanyaAgent.Safety.StampOrder
import NyanyaAgent.Safety.StateCopies
import NyanyaAgent.Safety.SubmitAnswers
import NyanyaAgent.Safety.TelegramIntake
import NyanyaAgent.Safety.TurnNumbers
import NyanyaAgent.Safety.TurnOrder
import NyanyaAgent.Safety.UploadConfirmation
import NyanyaAgent.Safety.WikiReviews
import NyanyaAgent.Safety.WorkMemory
import NyanyaAgent.Safety.WriterFence
import NyanyaAgent.System.Delivery
import NyanyaAgent.System.Invariant
import NyanyaAgent.Upgrade.Migrations
import NyanyaAgent.Wiki.Reviews
import NyanyaAgent.Worker.Process
