import BunnyMesh.Lib.Bytes
import BunnyMesh.Lib.Reader
import BunnyMesh.Lib.Utf8
import BunnyMesh.Lib.Hex
import BunnyMesh.Lib.Text
import BunnyMesh.Lib.Path
import BunnyMesh.Lib.OrdMap
import BunnyMesh.Lib.Exec
import BunnyMesh.Lib.Run
import BunnyMesh.Lib.Threads
import BunnyMesh.Lib.Interface
import BunnyMesh.Lib.Triple
import BunnyMesh.Lib.Trace
import BunnyMesh.Lib.Shipping
import BunnyMesh.Lib.HashChain
import BunnyMesh.Lib.Greatest
import BunnyMesh.Lib.Polling
import BunnyMesh.Basic
import BunnyMesh.Storage.Record
import BunnyMesh.Storage.Parsing
import BunnyMesh.Storage.Canonical
import BunnyMesh.Storage.Log
import BunnyMesh.Storage.Segments
import BunnyMesh.Storage.LogRep
import BunnyMesh.Storage.LogRuns
import BunnyMesh.Storage.Tail
import BunnyMesh.Storage.HeadHash
import BunnyMesh.Storage.Damage
import BunnyMesh.Storage.Faults
import BunnyMesh.Storage.Store
import BunnyMesh.Storage.Names
import BunnyMesh.Storage.Apply
import BunnyMesh.Storage.View
import BunnyMesh.Storage.Scan
import BunnyMesh.Storage.SecIndex
import BunnyMesh.Storage.Slots
import BunnyMesh.Storage.Snapshot
import BunnyMesh.Storage.World
import BunnyMesh.Storage.Ops
import BunnyMesh.Storage.Reopen
import BunnyMesh.Storage.Change
import BunnyMesh.Storage.Compact
import BunnyMesh.Storage.Live
import BunnyMesh.Storage.Sized
import BunnyMesh.Storage.Kept
import BunnyMesh.Storage.SnapFits
import BunnyMesh.Storage.Gc
import BunnyMesh.Storage.Events
import BunnyMesh.Storage.Runs
import BunnyMesh.Storage.Matched
import BunnyMesh.Storage.Create
import BunnyMesh.Storage.Stops
import BunnyMesh.Storage.Synced
import BunnyMesh.Storage.Refine
import BunnyMesh.Storage.Converge
import BunnyMesh.Storage.Visible
import BunnyMesh.Storage.Definitions
import BunnyMesh.Storage.IndexRuns
import BunnyMesh.Storage.GcReads
import BunnyMesh.Storage.Frame
import BunnyMesh.Storage.Meta
import BunnyMesh.Net.Base64
import BunnyMesh.Net.Wire
import BunnyMesh.Net.Runner
import BunnyMesh.Net.Routine
import BunnyMesh.Net.Dials
import BunnyMesh.Net.Pinned
import BunnyMesh.Net.Crash
import BunnyMesh.Net.Binding
import BunnyMesh.Net.Rounds
import BunnyMesh.Net.Pulls
import BunnyMesh.Net.Serving
import BunnyMesh.Net.Resync
import BunnyMesh.Net.Mesh
import BunnyMesh.Net.Strangers
import BunnyMesh.Net.Standalone
import BunnyMesh.Net.Ticks
import BunnyMesh.Server.Config
import BunnyMesh.Auth.Caps
import BunnyMesh.Auth.Authorize
import BunnyMesh.Auth.Ledger
import BunnyMesh.Auth.Scopes
import BunnyMesh.Auth.Rotate
import BunnyMesh.Auth.Rotations
import BunnyMesh.Server.State
import BunnyMesh.Server.Revocations
import BunnyMesh.Server.Data
import BunnyMesh.Server.Confined
import BunnyMesh.Server.Handler
import BunnyMesh.Server.Clock
import BunnyMesh.Server.Batch
import BunnyMesh.Server.BatchSize
import BunnyMesh.Query.Exec
import BunnyMesh.Query.Parse
import BunnyMesh.Query.Grammar
import BunnyMesh.Query.Scope
import BunnyMesh.Query.ReadOnly
import BunnyMesh.Query.Outcomes
import BunnyMesh.Query.Failures
import BunnyMesh.Fs.Mount
import BunnyMesh.Fs.Handles
import BunnyMesh.Server.Readers
import BunnyMesh.Server.Expiry
import BunnyMesh.Server.Feed
import BunnyMesh.Server.Node
import BunnyMesh.Server.Stamps
import BunnyMesh.Server.Writes
import BunnyMesh.Server.Causal
import BunnyMesh.Server.Served
import BunnyMesh.Server.Visits
import BunnyMesh.Server.Schemas
import BunnyMesh.Server.Quota
import BunnyMesh.Server.BatchResults
import BunnyMesh.Server.Stream
import BunnyMesh.Server.Identity
import BunnyMesh.Server.Tokens
import BunnyMesh.Server.RateLimit
import BunnyMesh.Sdk.Encoding
import BunnyMesh.Sdk.Stream
