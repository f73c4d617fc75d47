import ExpiringHash.Ascii
import ExpiringHash.Bytes
import ExpiringHash.Config
import ExpiringHash.Container
import ExpiringHash.Cycle
import ExpiringHash.Database.Action
import ExpiringHash.Database.Apply
import ExpiringHash.Database.Basic
import ExpiringHash.Database.Delete
import ExpiringHash.Database.Expiry
import ExpiringHash.Database.Read
import ExpiringHash.Database.Write
import ExpiringHash.Decimal.Binary64
import ExpiringHash.Decimal.FloatText
import ExpiringHash.Decimal.Shortest
import ExpiringHash.Dump
import ExpiringHash.Engine.Basic
import ExpiringHash.Engine.Keys
import ExpiringHash.Engine.Query
import ExpiringHash.Engine.Request
import ExpiringHash.Engine.Tick
import ExpiringHash.Error
import ExpiringHash.Expiry.DeadlineSet
import ExpiringHash.Expiry.Index
import ExpiringHash.Fields.Basic
import ExpiringHash.Fields.Scan
import ExpiringHash.Fields.Write
import ExpiringHash.Glob
import ExpiringHash.Hash.Digest
import ExpiringHash.Hash.Sip
import ExpiringHash.KeySpace
import ExpiringHash.Order.Ranked
import ExpiringHash.Order.SortedTable
import ExpiringHash.Proofs.Database.Additions
import ExpiringHash.Proofs.Database.Batches
import ExpiringHash.Proofs.Database.Blindness
import ExpiringHash.Proofs.Database.Clearing
import ExpiringHash.Proofs.Database.Congruence
import ExpiringHash.Proofs.Database.Decisions
import ExpiringHash.Proofs.Database.DrainOrder
import ExpiringHash.Proofs.Database.Draining
import ExpiringHash.Proofs.Database.Elsewhere
import ExpiringHash.Proofs.Database.Endings
import ExpiringHash.Proofs.Database.Events
import ExpiringHash.Proofs.Database.Gate
import ExpiringHash.Proofs.Database.InStep
import ExpiringHash.Proofs.Database.Leading
import ExpiringHash.Proofs.Database.LiveTwins
import ExpiringHash.Proofs.Database.Logs
import ExpiringHash.Proofs.Database.Overdue
import ExpiringHash.Proofs.Database.Overwrites
import ExpiringHash.Proofs.Database.Owed
import ExpiringHash.Proofs.Database.Reclaims
import ExpiringHash.Proofs.Database.Refusals
import ExpiringHash.Proofs.Database.Replicas
import ExpiringHash.Proofs.Database.Runs
import ExpiringHash.Proofs.Database.Slots
import ExpiringHash.Proofs.Database.Sparing
import ExpiringHash.Proofs.Database.Stale
import ExpiringHash.Proofs.Database.Steps
import ExpiringHash.Proofs.Database.Traces
import ExpiringHash.Proofs.Decimal.Numerals
import ExpiringHash.Proofs.Decimal.TextLength
import ExpiringHash.Proofs.Dump.Parts
import ExpiringHash.Proofs.Dump.Payloads
import ExpiringHash.Proofs.Effect.Leads
import ExpiringHash.Proofs.Effect.Related
import ExpiringHash.Proofs.Engine.Accounts
import ExpiringHash.Proofs.Engine.Additions
import ExpiringHash.Proofs.Engine.Anchored
import ExpiringHash.Proofs.Engine.Batches
import ExpiringHash.Proofs.Engine.Elsewhere
import ExpiringHash.Proofs.Engine.Failures
import ExpiringHash.Proofs.Engine.FullScan
import ExpiringHash.Proofs.Engine.Gate
import ExpiringHash.Proofs.Engine.Keys
import ExpiringHash.Proofs.Engine.Layouts
import ExpiringHash.Proofs.Engine.Lockstep
import ExpiringHash.Proofs.Engine.Matching
import ExpiringHash.Proofs.Engine.Populated
import ExpiringHash.Proofs.Engine.Rebuilt
import ExpiringHash.Proofs.Engine.Removals
import ExpiringHash.Proofs.Engine.Replicas
import ExpiringHash.Proofs.Engine.Rounds
import ExpiringHash.Proofs.Engine.Steps
import ExpiringHash.Proofs.Engine.Strays
import ExpiringHash.Proofs.Engine.Timers
import ExpiringHash.Proofs.Engine.Transfers
import ExpiringHash.Proofs.Engine.Twins
import ExpiringHash.Proofs.Engine.Visibility
import ExpiringHash.Proofs.Engine.Visits
import ExpiringHash.Proofs.Engine.Walks
import ExpiringHash.Proofs.Expiry.Entries
import ExpiringHash.Proofs.Fields.Changes
import ExpiringHash.Proofs.Fields.Climbing
import ExpiringHash.Proofs.Fields.Consistency
import ExpiringHash.Proofs.Fields.Live
import ExpiringHash.Proofs.Fields.Outcomes
import ExpiringHash.Proofs.Fields.Paging
import ExpiringHash.Proofs.Glob.CaseFolding
import ExpiringHash.Proofs.Glob.Cuts
import ExpiringHash.Proofs.Glob.Spelling
import ExpiringHash.Proofs.Order.Tables
import ExpiringHash.Proofs.Replication.Chronicle
import ExpiringHash.Proofs.Replication.Convergence
import ExpiringHash.Proofs.Replication.Decoding
import ExpiringHash.Proofs.Replication.Entries
import ExpiringHash.Proofs.Replication.Pieces
import ExpiringHash.Proofs.Replication.Publishing
import ExpiringHash.Proofs.Replication.Redelivery
import ExpiringHash.Proofs.Replication.Replay
import ExpiringHash.Proofs.Replication.Selection
import ExpiringHash.Proofs.Wire.Accepting
import ExpiringHash.Proofs.Wire.Grammar
import ExpiringHash.Proofs.Wire.Pieces
import ExpiringHash.Proofs.Wire.Reading
import ExpiringHash.Proofs.Wire.Settled
import ExpiringHash.Record
import ExpiringHash.Relocation
import ExpiringHash.Replication.Command
import ExpiringHash.Replication.Log
import ExpiringHash.Replication.Replica
import ExpiringHash.Report
import ExpiringHash.Text.Blank
import ExpiringHash.Text.Numeral
import ExpiringHash.Text.Utf8
import ExpiringHash.Timer
import ExpiringHash.Ttl
import ExpiringHash.Version
import ExpiringHash.Wire.Frame
import ExpiringHash.Wire.Parser
import ExpiringHash.Wire.Stream
import ExpiringHash.Word
import ExpiringHash.Proofs.Fields.Deadlines
import ExpiringHash.Proofs.Expiry.Shifts
import ExpiringHash.Proofs.Cycle.Statistics
import ExpiringHash.Proofs.Engine.Digests
