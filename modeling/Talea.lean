import Talea.Lib.Int64
import Talea.Lib.FrameScan
import Talea.Lib.HashMap
import Talea.Lib.SortedPairs
import Talea.Lib.Codec
import Talea.Lib.Path
import Talea.Lib.Steps
import Talea.Lib.Decimal
import Talea.Lib.Totals
import Talea.Lib.ExceptFold
import Talea.Lib.Repeatable
import Talea.Lib.Json
import Talea.Lib.UtcTexts
import Talea.Core.Types
import Talea.Core.Store
import Talea.Core.DoubleEntry
import Talea.Core.FormatMinor
import Talea.Service.Post
import Talea.Cli.Parse
import Talea.Talead.Seed
import Talea.Log.Runtime
import Talea.Log.Frame
import Talea.Log.Segment
import Talea.Log.Layout
import Talea.Log.IdemSpill
import Talea.Log.State
import Talea.Log.Replay
import Talea.Log.IdemIndex
import Talea.Log.Overlay
import Talea.Log.Snapshot
import Talea.Log.Writer
import Talea.Log.Recovery
import Talea.Log.Classification
import Talea.Log.WriteAhead
import Talea.Log.Run
import Talea.Log.Invariant
import Talea.Log.Replies
import Talea.Log.BatchSpec
import Talea.Log.Reopening
import Talea.Log.RunInvariant
import Talea.Log.ExactlyOnce
import Talea.Log.Sequencing
import Talea.Log.SnapshotReplay
import Talea.Log.Crash
import Talea.Log.CrashDurability
import Talea.Log.BinaryRuntime
import Talea.Log.DamagedRuns
import Talea.Log.DamagedTail
import Talea.Log.JobSteps
import Talea.Log.Admission
import Talea.Log.Admitted
import Talea.Log.History
import Talea.Log.Overdraft
import Talea.Log.Answers
import Talea.Log.AccountOpening
import Talea.Log.Handles
import Talea.Log.Moments
import Talea.Log.Readers
import Talea.Log.Subscribe
import Talea.Log.TrialBalance
import Talea.Log.Calls
import Talea.Log.CallSteps
import Talea.Log.SecondLife
import Talea.Log.ShutdownWait
import Talea.Log.JobFlow
import Talea.Log.AssetRegistry
import Talea.Log.Registrations
import Talea.Log.RegistryRuns
import Talea.Log.BookNames
import Talea.Log.Dirents
import Talea.Log.FailStop
import Talea.Log.Positions
import Talea.Log.RangeScan
import Talea.Log.FrameCodec
import Talea.Lib.PartitionPoint
import Talea.Log.PostingSearch
import Talea.Log.FlatIndex
import Talea.Log.Histories
import Talea.Log.AccountReads
import Talea.Log.Balances
import Talea.Log.AsOf
import Talea.Log.SpillFailure
import Talea.Log.IdemMap
import Talea.Log.LookupFailure
import Talea.Log.HotBound
import Talea.Log.SoloStore
import Talea.Log.RegistryReopen
import Talea.Talead.SeedApply
import Talea.Service.HistoryPages
import Talea.Core.Wire
import Talea.Server.Http
import Talea.Lib.Traces
import Talea.Server.Handlers
import Talea.Lib.Slots
import Talea.Core.WireJson
import Talea.Service.Drafts
import Talea.Service.Reads
import Talea.Server.Auth
import Talea.Client.Sse
import Talea.Client.Http
import Talea.Server.Batch
import Talea.Server.Confinement
import Talea.Server.OtherBooks
import Talea.Client.Resume
import Talea.Client.Shedding
import Talea.Lib.Places
import Talea.Service.WriteRouter
import Talea.Service.RouterMoves
import Talea.Service.RouterRun
import Talea.Lib.Sessions
import Talea.Sql.Tables
import Talea.Log.AccountKeys
import Talea.Lib.Ascending
import Talea.Sql.Pending
import Talea.Sql.Stream
import Talea.Sqlite.Database
import Talea.Sqlite.Batch
import Talea.Sqlite.Writes
import Talea.Sqlite.Store
import Talea.Sqlite.PointInTime
import Talea.Lib.Rfc3339
import Talea.Sqlite.TextTimes
import Talea.Sqlite.Subscribe
import Talea.Client.Cursors
import Talea.Postgres.Server
import Talea.Postgres.Store
import Talea.Postgres.Ledger
import Talea.Postgres.Isolation
import Talea.Postgres.Contract
import Talea.Postgres.Rules
import Talea.Postgres.Registry
import Talea.Postgres.Drafts
import Talea.Postgres.Commits
import Talea.Postgres.WriteSet
import Talea.Postgres.Plan
import Talea.Postgres.FastPath
import Talea.Postgres.Runs
import Talea.Postgres.Subscribe
