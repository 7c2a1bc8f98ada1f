import CdcFlight.Lib.Dict
import CdcFlight.Lib.Run
import CdcFlight.Lib.Coupling
import CdcFlight.Lib.SnapshotCell
import CdcFlight.Lib.Grows
import CdcFlight.Lib.Keyed
import CdcFlight.Envelope
import CdcFlight.RowPatch
import CdcFlight.Fold.StartRows
import CdcFlight.Fold.TruncateMarks
import CdcFlight.Fold.State
import CdcFlight.Fold.Keyless
import CdcFlight.Fold.Collect
import CdcFlight.Source.History
import CdcFlight.Source.Images
import CdcFlight.Source.Records
import CdcFlight.Fold.Represent
import CdcFlight.Fold.Frame
import CdcFlight.Fold.Attribution
import CdcFlight.Fold.Simulation
import CdcFlight.Fold.Availability
import CdcFlight.Assembler.Units
import CdcFlight.Assembler.Feed
import CdcFlight.Assembler.Ledger
import CdcFlight.Assembler.Tracks
import CdcFlight.Assembler.Refine
import CdcFlight.Assembler.Wholeness
import CdcFlight.Assembler.Conservation
import CdcFlight.Assembler.AckOrder
import CdcFlight.Assembler.Staging
import CdcFlight.Assembler.Retention
import CdcFlight.Destination.Table
import CdcFlight.Destination.TruncateAudit
import CdcFlight.Destination.Writer
import CdcFlight.Destination.Materialize
import CdcFlight.Destination.KeyedGroup
import CdcFlight.Destination.LedgerBatch
import CdcFlight.Destination.KeyOnlyGroup
import CdcFlight.Destination.KeylessAudit
import CdcFlight.Lib.Text
import CdcFlight.Lib.Attempts
import CdcFlight.Lib.Next
import CdcFlight.EventLedger
import CdcFlight.Scd2.Token
import CdcFlight.Scd2.History
import CdcFlight.Scd2.Apply
import CdcFlight.Scd2.Chain
import CdcFlight.Scd2.Source
import CdcFlight.Scd2.Confluence
import CdcFlight.Scd2.TokenOrder
import CdcFlight.Schema.Evolution
import CdcFlight.Schema.Diff
import CdcFlight.Schema.Identity
import CdcFlight.Schema.Passing
import CdcFlight.Schema.LateRename
import CdcFlight.Containment.Retry
import CdcFlight.Destination.Runs
import CdcFlight.Planner.Units
import CdcFlight.Planner.HandOver
import CdcFlight.Snapshot.Completion
import CdcFlight.Snapshot.Safety
import CdcFlight.Lib.Joined
import CdcFlight.Lib.DecimalNumber
import CdcFlight.Numeric.Variable
import CdcFlight.Lib.Journal
import CdcFlight.Identity.Build
import CdcFlight.Identity.Distinct
import CdcFlight.Identity.Stable
import CdcFlight.Offsets.Point
import CdcFlight.Offsets.Reconcile
import CdcFlight.Lib.Slices
import CdcFlight.Lib.Checks
import CdcFlight.SchemaEpoch.Classify
import CdcFlight.SchemaEpoch.Apply
import CdcFlight.SchemaEpoch.Sides
import CdcFlight.Admission.Applier
import CdcFlight.Admission.Retention
import CdcFlight.Lease.Runners
import CdcFlight.Lease.Safety
import CdcFlight.Lease.Fenced
import CdcFlight.Completion.Watermark
import CdcFlight.Admission.DeletePolicy
import CdcFlight.Catalog.Changes
import CdcFlight.Catalog.Partitions
import CdcFlight.Catalog.Confirmation
import CdcFlight.Catalog.Durable
import CdcFlight.Lib.Brackets
import CdcFlight.Schema.UnionText
import CdcFlight.Fold.Operations
import CdcFlight.Fold.Counts
import CdcFlight.Fold.KeyOnly
import CdcFlight.Fold.Wearing
import CdcFlight.Lib.Quoted
import CdcFlight.Typed.RangeText
import CdcFlight.Lib.NumberLiteral
import CdcFlight.Lib.Binary64
import CdcFlight.Lib.Json
import CdcFlight.Lib.CivilDate
import CdcFlight.Identity.CanonicalJson
import CdcFlight.Lib.JsonMeaning
import CdcFlight.Typed.Jsonb
import CdcFlight.Lib.Spans
import CdcFlight.Identity.Multirange
import CdcFlight.Lib.Programs
import CdcFlight.Fold.Recorded
import CdcFlight.Fold.Coherent
import CdcFlight.Lib.Lock
import CdcFlight.Run.Exclusion
import CdcFlight.Lib.Worklist
import CdcFlight.States.Machine
import CdcFlight.Run.Phases
import CdcFlight.Lib.Resumable
import CdcFlight.Lifecycle.Registry
import CdcFlight.Lifecycle.Recovery
import CdcFlight.Offsets.Replay
import CdcFlight.Lib.MarkedLog
import CdcFlight.Admission.ExactlyOnce
import CdcFlight.Admission.Protocol
