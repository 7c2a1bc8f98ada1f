import CdcFlight.Envelope
import CdcFlight.Lib.Run

/-!
# Units under assembly

The data of `assembler.py`: complete units, the transaction and the snapshot chunk that are open,
and the assembler's own state. The spill callback either takes every event it is handed or raises,
as `spill_protocol.stage_events` does; the calls that returned are kept in the state, in order.

A record retained for acknowledgement stands in `records` with the fields it had on arrival. The
handles of superseded records are released in the source; here a superseded record leaves
`records`, and nothing reads the handle of an event.

## Main definitions

* `CdcFlight.CompleteUnit`, `CdcFlight.OpenTxn`, `CdcFlight.OpenChunk`.
* `CdcFlight.Assembler`, `CdcFlight.AssemblerConfig`, `CdcFlight.Assemble`.
-/

namespace CdcFlight

open Lib

/-- `UNIT_*` of `assembler.py`. -/
inductive UnitKind
  | txn
  | snapshotChunk
  | control
  | message
deriving DecidableEq, Repr

/-- `assembler.CompleteUnit`. -/
structure CompleteUnit (C V : Type) where
  kind : UnitKind
  /-- The events still in memory, in source order. -/
  events : List (PendingRecord C V) := []
  /-- What gets acknowledged, in arrival order. -/
  records : List (PendingRecord C V) := []
  txnId : Option String := none
  lastLsn : ℕ := 0
  commitLsn : Option ℕ := none
  nbytes : ℕ := 0
  table : Option String := none
  schema : Option String := none
  touchedTables : Finset String := ∅
  snapshotLastForTable : Bool := false
  snapshotLast : Bool := false
  fenced : Bool := false
  spilled : Bool := false
  spilledEvents : ℕ := 0
  /-- The identity of the unit's staged rows. -/
  spillUnitSeq : Option ℕ := none
  discardedEvents : ℕ := 0
  deliveryEvents : Option ℕ := none
  incremental : Bool := false
  ignored : Bool := false
  admissionRefusals : List AdmissionRefusal := []

/-- `CompleteUnit.event_count`. -/
def CompleteUnit.eventCount {C V : Type} (u : CompleteUnit C V) : ℕ :=
  u.events.length + u.spilledEvents + u.discardedEvents

/-- `_OpenTxn`. -/
structure OpenTxn (C V : Type) where
  txnId : String
  beginSeen : Bool
  events : List (PendingRecord C V) := []
  records : List (PendingRecord C V) := []
  lastLsn : ℕ := 0
  nbytes : ℕ := 0
  /-- The size of what is still in memory. -/
  memBytes : ℕ := 0
  /-- Counters kept independently of the retained events. -/
  count : ℕ := 0
  deliveryEvents : ℕ := 0
  perTable : Dict String ℕ := ∅
  touchedTables : Finset String := ∅
  admissionRefusals : List AdmissionRefusal := []
  orders : Finset ℤ := ∅
  messageCount : ℕ := 0
  spilled : ℕ := 0
  spillUnitSeq : Option ℕ := none

/-- `_OpenChunk`. -/
structure OpenChunk (C V : Type) where
  schema : Option String
  table : Option String
  incremental : Bool
  events : List (PendingRecord C V) := []
  records : List (PendingRecord C V) := []
  nbytes : ℕ := 0
  memBytes : ℕ := 0
  count : ℕ := 0
  deliveryEvents : ℕ := 0
  spilled : ℕ := 0
  spillUnitSeq : Option ℕ := none
  touchedTables : Finset String := ∅
  admissionRefusals : List AdmissionRefusal := []
  /-- Debezium said `snapshot=last` for this chunk. -/
  sawLast : Bool := false

/-- One call of the spill callback: the unit, its events, and the snapshot relation they are
rows of. -/
structure SpillCall (C V : Type) where
  unitSeq : ℕ
  events : List (PendingRecord C V)
  snapshot : Option (Option String × Option String)

/-- The parameters of `TransactionAssembler`. -/
structure AssemblerConfig (C V : Type) where
  snapshotChunkEvents : ℕ := 50000
  snapshotChunkBytes : ℕ := 64 * 1024 * 1024
  /-- The callback, when there is one: the error it raises on a batch, if it raises. -/
  onSpill : Option (SpillCall C V → Option Refusal) := none
  spillEvents : ℕ := 500000
  spillBytes : ℕ := 64 * 1024 * 1024
  keepAllRecords : Bool := false
  discardStreaming : Bool := false
  incrementalEnabled : Bool := false

/-- The state of `TransactionAssembler`. -/
structure Assembler (C V : Type) where
  txn : Option (OpenTxn C V) := none
  chunk : Option (OpenChunk C V) := none
  deferredSnapshots : List (PendingRecord C V) := []
  spillUnitSeq : ℕ := 0
  snapshotOrdinals : Dict String ℕ := ∅
  unitsEmitted : ℕ := 0
  discardedTailEvents : ℕ := 0
  orphanEndMarkers : ℕ := 0
  implicitTxnOpens : ℕ := 0
  /-- The calls of the spill callback that returned. -/
  spillCalls : List (SpillCall C V) := []

/-- A program on the assembler, which keeps its state when it raises. -/
abbrev Assemble (C V : Type) := EStateM Refusal (Assembler C V)

variable {C V : Type}

/-- A `TransactionAssemblyError`. -/
def assemblyError {α : Type} (message : String) : Assemble C V α :=
  throw { errorClass := .transactionAssemblyError, message := message }

/-- `str()` of an optional string. -/
def pyStr : Option String → String
  | none => "None"
  | some s => s

/-- `_retain`: the acknowledgement list after a record. -/
def AssemblerConfig.retain (cfg : AssemblerConfig C V) (records : List (PendingRecord C V))
    (rec : PendingRecord C V) : List (PendingRecord C V) :=
  if cfg.keepAllRecords then records ++ [rec] else [rec]

/-- The hard spill threshold, on what is in memory. -/
def AssemblerConfig.overflows (cfg : AssemblerConfig C V) (events : List (PendingRecord C V))
    (memBytes : ℕ) : Bool :=
  cfg.spillEvents ≤ events.length || cfg.spillBytes ≤ memBytes

/-- The open transaction is replaced. -/
def Assembler.setTxn (s : Assembler C V) (txn : Option (OpenTxn C V)) : Assembler C V :=
  { s with txn := txn }

/-- The open chunk is replaced. -/
def Assembler.setChunk (s : Assembler C V) (chunk : Option (OpenChunk C V)) : Assembler C V :=
  { s with chunk := chunk }

/-- The queue of deferred snapshot records is replaced. -/
def Assembler.setDeferred (s : Assembler C V) (deferred : List (PendingRecord C V)) :
    Assembler C V :=
  { s with deferredSnapshots := deferred }

/-- The seq of a unit's staged rows: its own, or the next one. -/
def Assembler.seqFor (s : Assembler C V) (own : Option ℕ) : ℕ := own.getD (s.spillUnitSeq + 1)

/-- A seq has been handed out. -/
def Assembler.reserveSeq (s : Assembler C V) (own : Option ℕ) : Assembler C V :=
  { s with spillUnitSeq := if own.isNone then s.spillUnitSeq + 1 else s.spillUnitSeq }

/-- A call of the spill callback returned. -/
def Assembler.noteCall (s : Assembler C V) (call : SpillCall C V) : Assembler C V :=
  { s with spillCalls := s.spillCalls ++ [call] }

/-- `units_emitted += n`. -/
def Assembler.countUnits (s : Assembler C V) (n : ℕ) : Assembler C V :=
  { s with unitsEmitted := s.unitsEmitted + n }

/-- `open_unit_has_spilled`. -/
def Assembler.openUnitHasSpilled (s : Assembler C V) : Bool :=
  (s.txn.any fun t => 0 < t.spilled) || s.chunk.any fun c => 0 < c.spilled

end CdcFlight
