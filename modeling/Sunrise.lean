import Sunrise.Lib.Table
import Sunrise.Lib.Causal
import Sunrise.Lib.Antichain
import Sunrise.Lib.Quota
import Sunrise.Stamp
import Sunrise.Value
import Sunrise.Registry
import Sunrise.Merge.Versions
import Sunrise.Merge.VersionOrder
import Sunrise.Merge.Admissions
import Sunrise.Merge.Register
import Sunrise.Merge.RegisterFold
import Sunrise.Merge.State
import Sunrise.Merge.Fold
import Sunrise.Merge.Spec
import Sunrise.Merge.Keep
import Sunrise.Merge.Step
import Sunrise.Merge.Snapshot
import Sunrise.Merge.Join
import Sunrise.Merge.Dump
import Sunrise.Merge.Project
import Sunrise.Merge.Convergence
import Sunrise.Merge.Replay
import Sunrise.Merge.Replicas
import Sunrise.Log.OpLog
import Sunrise.Log.Cursor
import Sunrise.Log.Chain
import Sunrise.Log.Evidence
import Sunrise.Log.Forks
import Sunrise.Log.Roots
import Sunrise.Log.Clock
import Sunrise.Log.Restart
import Sunrise.Trust.Revocation
import Sunrise.Trust.Register
import Sunrise.Trust.Identity
import Sunrise.Trust.Succession
import Sunrise.Trust.Account
import Sunrise.Trust.Membership
import Sunrise.Vault.Groups
import Sunrise.Vault.Atomic
import Sunrise.Vault.Compaction
import Sunrise.Vault.Parked
import Sunrise.Cbor.Canonical
import Sunrise.Cbor.OpEnvelope
import Sunrise.Relay.Log
import Sunrise.Relay.Ring
import Sunrise.Relay.Resume
import Sunrise.Keys.Keychain
import Sunrise.Keys.Distribution
import Sunrise.Keys.Backfill
import Sunrise.Keys.Deferral
import Sunrise.Ical.Document
import Sunrise.Ical.Block
import Sunrise.Ical.Losses
import Sunrise.Search.RoundTrip
import Sunrise.Sync.Sessions
import Sunrise.Rows.Task
import Sunrise.Sync.Acks
import Sunrise.Keys.Bundle
import Sunrise.Blob.Reach
import Sunrise.Blob.Runs
import Sunrise.Blob.Fetch
import Sunrise.Relay.Fanout
import Sunrise.Deps.Checks
import Sunrise.Deps.Resolve
import Sunrise.Rows.Order
import Sunrise.Keys.Pairing
import Sunrise.Keys.PairingCodec
import Sunrise.Relay.Tombstones
import Sunrise.Trust.ChainRecord
import Sunrise.Trust.Seed
import Sunrise.Lib.Calendar
import Sunrise.Lib.Ascending
import Sunrise.Routine.Expand
import Sunrise.Routine.Windows
import Sunrise.Routine.Rfc
import Sunrise.Planner.Day
import Sunrise.Streams.Parents
import Sunrise.Lib.Radix
import Sunrise.Streams.SortOrder
import Sunrise.Lib.Result
import Sunrise.Merge.Patch
import Sunrise.Lib.Gcra
import Sunrise.Relay.RateLimit
import Sunrise.Log.Members
import Sunrise.Lib.EventStream
import Sunrise.Lib.Utf8
import Sunrise.Sync.Events
import Sunrise.Lib.StableSort
import Sunrise.Rows.TaskOrder
import Sunrise.Planner.Partition
import Sunrise.Planner.Brief
import Sunrise.Merge.Collections
import Sunrise.Lib.Bits
import Sunrise.Recovery.Bip39
import Sunrise.Lib.Numeral
import Sunrise.Routine.Rrule
import Sunrise.Lib.Iso
import Sunrise.Prefs.Preferences
import Sunrise.Lib.Keystream
import Sunrise.Recovery.Blob
import Sunrise.Rows.BlockMerge
import Sunrise.Sync.Gaps
import Sunrise.Blob.AutoFetch
import Sunrise.Notes.Body
import Sunrise.Notes.RoundTrip
import Sunrise.Lib.Casing
import Sunrise.Capture.Parse
import Sunrise.Capture.Lossless
import Sunrise.Capture.Annotate
import Sunrise.Crockford
import Sunrise.Keys.Attempts
import Sunrise.Planner.Trends
import Sunrise.Deps.Reads
import Sunrise.Recovery.Restore
