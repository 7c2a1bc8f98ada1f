import CdcFlight.Assembler.Units

/-!
# The snapshot completion model

`snapshot_completion.SnapshotCompletion`: the ordered evidence that an initial snapshot is
complete. Callbacks declare the tables and their row counts, committed groups bring the rows, and
the completion edge is taken from whichever side comes last. A call that raises keeps the state it
had reached when it raised.

A notification is given by the entries of its data that the model reads. The checks of a group
name the table of every unit, so the names are computed once, with the checks.

## Main definitions

* `CdcFlight.SnapshotCompletion`: the model, with `CdcFlight.SnapshotState` and its declared edges.
* `CdcFlight.SnapshotCompletion.observeNotification`,
  `CdcFlight.SnapshotCompletion.commitReady`,
  `CdcFlight.SnapshotCompletion.willCompleteAfterCommit`,
  `CdcFlight.SnapshotCompletion.observeCommittedGroup`,
  `CdcFlight.SnapshotCompletion.enterStreaming`: the calls.
-/

namespace CdcFlight

open Lib

/-- The states of the machine `SNAPSHOT_COMPLETION`. -/
inductive SnapshotState
  | awaitingCallbacks
  | callbacksStarted
  | completionNotified
  | callbacksComplete
  | notRequired
  | streaming
deriving DecidableEq, Repr

/-- The declared edges of `SNAPSHOT_COMPLETION`. -/
def SnapshotState.edges : List (SnapshotState × SnapshotState) :=
  [(.awaitingCallbacks, .callbacksStarted), (.callbacksStarted, .callbacksStarted),
    (.callbacksStarted, .completionNotified), (.callbacksStarted, .callbacksComplete),
    (.completionNotified, .completionNotified), (.completionNotified, .callbacksComplete),
    (.notRequired, .notRequired), (.callbacksComplete, .streaming), (.notRequired, .streaming)]

/-- `SNAPSHOT_COMPLETION.is_terminal`. -/
def SnapshotState.isTerminal : SnapshotState → Bool
  | .callbacksComplete => true
  | .notRequired => true
  | .streaming => true
  | _ => false

/-- `SNAPSHOT_CALLBACK_OBSERVATIONS`. -/
inductive Observation
  | started
  | inProgress
  | tableScanCompleted
  | tableChunkInProgress
  | tableChunkCompleted
  | completed
  | skipped
  | aborted
deriving DecidableEq, Repr

/-- The word of an observation in a notification. -/
def Observation.name : Observation → String
  | .started => "STARTED"
  | .inProgress => "IN_PROGRESS"
  | .tableScanCompleted => "TABLE_SCAN_COMPLETED"
  | .tableChunkInProgress => "TABLE_CHUNK_IN_PROGRESS"
  | .tableChunkCompleted => "TABLE_CHUNK_COMPLETED"
  | .completed => "COMPLETED"
  | .skipped => "SKIPPED"
  | .aborted => "ABORTED"

/-- `SNAPSHOT_CALLBACK_OBSERVATIONS.parse`. -/
def Observation.parse (name : String) : Option Observation :=
  [started, inProgress, tableScanCompleted, tableChunkInProgress, tableChunkCompleted, completed,
    skipped, aborted].find? (·.name = name)

/-- `SnapshotNotification`, with the entries of its data that are read. -/
structure SnapshotNotification where
  observation : String
  status : Option String := none
  scannedCollection : Option String := none
  currentCollectionInProgress : Option String := none
  /-- `total_rows_scanned`, seen through `int()`. -/
  totalRowsScanned : Option PyInt := none
deriving DecidableEq, Repr

/-- The raises of the model: `StreamingAdmissionRefused` for the last one, else
`SnapshotObservationError`, each with what its text names. -/
inductive ObservationError
  | unknownObservation (name : String)
  | unexpected (observation : Observation) (state : SnapshotState)
  | illegalTransition (source target : SnapshotState)
  | invalidRelation (value : String)
  | missingCollection (observation : Observation)
  | unexpectedTable (table : String)
  | notSucceeded (status : Option String)
  | completedTwice (table : String)
  | invalidRows (table : String)
  | negativeRows (table : String) (rows : ℤ)
  | beyondDeclared (table : String) (committed declared : ℕ)
  | withoutTerminalSet (missing extra : Finset String)
  | rowsOutsideCallbacks (state : SnapshotState)
  | rowsWithoutTable
  | boundaryWithoutCompleted (state : SnapshotState)
  | streamingAdmissionRefused (state : SnapshotState)
deriving DecidableEq

/-! ### Relation names -/

/-- The characters `str.strip()` removes. -/
def isPySpace (c : Char) : Bool :=
  let n := c.toNat
  (0x9 ≤ n && n ≤ 0xd) || (0x1c ≤ n && n ≤ 0x20) || n = 0x85 || n = 0xa0 || n = 0x1680 ||
    (0x2000 ≤ n && n ≤ 0x200a) || n = 0x2028 || n = 0x2029 || n = 0x202f || n = 0x205f ||
    n = 0x3000

/-- `str.strip` of a set of characters. -/
def pyStrip (p : Char → Bool) (text : List Char) : List Char :=
  ((text.dropWhile p).reverse.dropWhile p).reverse

/-- `_qualified`. -/
def qualifiedName (value : String) : Except ObservationError String :=
  match (value.toList.splitOn '.').map fun part => pyStrip (· = '"') (pyStrip isPySpace part) with
  | [schema, table] =>
    if schema = [] ∨ table = [] then .error (.invalidRelation value)
    else .ok (String.ofList (schema ++ '.' :: table))
  | _ => .error (.invalidRelation value)

/-! ### The model -/

/-- `SnapshotCompletion`. -/
structure SnapshotCompletion where
  required : Bool
  state : SnapshotState
  expectedTables : Finset String := ∅
  callbackTables : Finset String := ∅
  callbackRows : Dict String ℕ := ∅
  committedRows : Dict String ℕ := ∅
  markerSeen : Bool := false
  snapshotUnits : ℕ := 0
  tablesSeen : Finset String := ∅

/-- What a call leaves: a result or an error, and the state. -/
abbrev Observed (α : Type) := EStateM.Result ObservationError SnapshotCompletion α

namespace SnapshotCompletion

/-- The model over a set of table names. -/
def ofTables (required : Bool) (expectedTables : Finset String) : SnapshotCompletion where
  required := required
  state := if required then .awaitingCallbacks else .notRequired
  expectedTables := expectedTables

/-- `__init__`: the expected tables are named by `_qualified`. -/
def init (required : Bool) (expectedTables : List String) :
    Except ObservationError SnapshotCompletion := do
  let tables ← expectedTables.mapM qualifiedName
  return ofTables required tables.toFinset

/-- `phase_ended`. -/
def phaseEnded (s : SnapshotCompletion) : Bool := s.state.isTerminal

/-- `_transition`. -/
def transition (target : SnapshotState) (s : SnapshotCompletion) : Observed Unit :=
  if (s.state, target) ∈ SnapshotState.edges then .ok () { s with state := target }
  else .error (.illegalTransition s.state target) s

/-- The committed rows of a table. -/
def committedOf (s : SnapshotCompletion) (table : String) : ℕ :=
  (s.committedRows.get? table).getD 0

/-- `_counts_match`. -/
def countsMatch (s : SnapshotCompletion) (committedRows : Dict String ℕ) : Bool :=
  decide (∀ table ∈ s.expectedTables,
    s.callbackRows.get? table = some ((committedRows.get? table).getD 0))

/-! ### Committed groups -/

section Groups

variable {C V : Type}

/-- `_snapshot_units_in`. -/
def snapshotUnitsIn (units : List (CompleteUnit C V)) : List (CompleteUnit C V) :=
  units.filter fun unit =>
    unit.kind = .snapshotChunk && !unit.incremental && !unit.ignored && !unit.fenced

/-- `_has_boundary`. -/
def hasBoundary (units : List (CompleteUnit C V)) : Bool :=
  units.any fun unit => unit.records.any fun record => record.kind = .snapshotBoundary

/-- The rows a snapshot unit brings to its table. -/
structure TableRows where
  table : String
  rows : ℕ
  last : Bool
deriving DecidableEq, Repr

/-- `_qualified` of a unit's schema and table. -/
def unitTable (unit : CompleteUnit C V) : Except ObservationError String :=
  qualifiedName (pyStr unit.schema ++ "." ++ pyStr unit.table)

/-- The identity checks of `_validate_snapshot_units` on one unit. -/
def identifyUnit (s : SnapshotCompletion) (unit : CompleteUnit C V) :
    Except ObservationError TableRows :=
  if !truthy unit.schema || !truthy unit.table then .error .rowsWithoutTable
  else do
    let table ← unitTable unit
    if table ∉ s.expectedTables then .error (.unexpectedTable table)
    else return { table, rows := unit.eventCount, last := unit.snapshotLast }

/-- `_projected_rows`. -/
def projectedRows (committedRows : Dict String ℕ) (rows : List TableRows) : Dict String ℕ :=
  rows.foldl (fun d r => d.set r.table ((d.get? r.table).getD 0 + r.rows)) committedRows

/-- The rows of a group go beyond a declared count. -/
def beyondDeclared (s : SnapshotCompletion) (rows : List TableRows) : Option ObservationError :=
  let projected := projectedRows s.committedRows rows
  rows.findSome? fun r =>
    let total := (projected.get? r.table).getD 0
    match s.callbackRows.get? r.table with
    | none => none
    | some declared =>
      if declared < total then some (.beyondDeclared r.table total declared) else none

/-- `_validate_snapshot_units`. -/
def validateSnapshotUnits (s : SnapshotCompletion) (units : List (CompleteUnit C V)) :
    Except ObservationError (List TableRows) :=
  if units = [] then .ok []
  else if s.state ≠ .callbacksStarted ∧ s.state ≠ .completionNotified then
    .error (.rowsOutsideCallbacks s.state)
  else if (s.state, s.state) ∉ SnapshotState.edges then
    .error (.illegalTransition s.state s.state)
  else do
    let rows ← units.mapM s.identifyUnit
    match s.beyondDeclared rows with
    | some error => .error error
    | none => return rows

/-- `_will_complete_after`. -/
def willCompleteAfter (s : SnapshotCompletion) (rows : List TableRows) (boundary : Bool) :
    Except ObservationError Bool :=
  if s.phaseEnded then .ok true
  else if s.state ≠ .completionNotified then
    if boundary then .error (.boundaryWithoutCompleted s.state) else .ok false
  else .ok (s.countsMatch (projectedRows s.committedRows rows))

/-- `commit_ready`. -/
def commitReady (s : SnapshotCompletion) (units : List (CompleteUnit C V)) :
    Except ObservationError Bool := do
  let rows ← s.validateSnapshotUnits (snapshotUnitsIn units)
  if hasBoundary units then s.willCompleteAfter rows true else return true

/-- `will_complete_after_commit`. -/
def willCompleteAfterCommit (s : SnapshotCompletion) (units : List (CompleteUnit C V)) :
    Except ObservationError Bool := do
  let rows ← s.validateSnapshotUnits (snapshotUnitsIn units)
  s.willCompleteAfter rows false

/-- The rows of one committed unit are recorded. -/
def record (s : SnapshotCompletion) (r : TableRows) : SnapshotCompletion :=
  { s with
    snapshotUnits := s.snapshotUnits + 1
    tablesSeen := insert r.table s.tablesSeen
    committedRows := s.committedRows.set r.table (s.committedOf r.table + r.rows)
    markerSeen := s.markerSeen || r.last }

/-- The phase edge of `observe_committed_group`, once its rows are recorded. -/
def settle (s : SnapshotCompletion) : Observed Unit :=
  if s.state = .completionNotified ∧ s.countsMatch s.committedRows then
    s.transition .callbacksComplete
  else if s.state = .awaitingCallbacks ∨ s.state = .callbacksStarted ∨
      s.state = .completionNotified then
    s.transition s.state
  else .ok () s

/-- `observe_committed_group`. -/
def observeCommittedGroup (units : List (CompleteUnit C V)) (s : SnapshotCompletion) :
    Observed Unit :=
  match s.validateSnapshotUnits (snapshotUnitsIn units) with
  | .error error => .error error s
  | .ok rows => if rows = [] then .ok () s else (rows.foldl record s).settle

end Groups

/-! ### Notifications -/

/-- `_validate_progress_table`. -/
def validateProgressTable (s : SnapshotCompletion) (observation : Observation)
    (n : SnapshotNotification) : Except ObservationError Unit :=
  match if observation = .tableChunkCompleted then n.scannedCollection
    else n.currentCollectionInProgress with
  | none => .error (.missingCollection observation)
  | some value => do
    let table ← qualifiedName value
    if table ∈ s.expectedTables then return ()
    else .error (.unexpectedTable table)

/-- The progress callbacks. -/
def observeProgress (observation : Observation) (n : SnapshotNotification)
    (s : SnapshotCompletion) : Observed Unit :=
  if s.state ≠ .callbacksStarted then .error (.unexpected observation s.state) s
  else match s.validateProgressTable observation n with
    | .error error => .error error s
    | .ok _ => s.transition .callbacksStarted

/-- `callback_tables.add`. -/
def addCallbackTable (s : SnapshotCompletion) (table : String) : SnapshotCompletion :=
  { s with callbackTables := insert table s.callbackTables }

/-- `callback_rows[table] = rows`. -/
def declareRows (s : SnapshotCompletion) (table : String) (rows : ℕ) : SnapshotCompletion :=
  { s with callbackRows := s.callbackRows.set table rows }

/-- The end of `TABLE_SCAN_COMPLETED`: the table is marked, then its count is read, stored and
compared. -/
def declareScan (table : String) (n : SnapshotNotification) (s : SnapshotCompletion) :
    Observed Unit :=
  let marked := s.addCallbackTable table
  match n.totalRowsScanned with
  | none => .error (.invalidRows table) marked
  | some .unparsable => .error (.invalidRows table) marked
  | some (.int rows) =>
    if rows < 0 then .error (.negativeRows table rows) marked
    else
      let declared := marked.declareRows table rows.toNat
      if rows.toNat < s.committedOf table then
        .error (.beyondDeclared table (s.committedOf table) rows.toNat) declared
      else declared.transition .callbacksStarted

/-- The table of a `TABLE_SCAN_COMPLETED` that passes the checks made before any change. -/
def scannedTable (s : SnapshotCompletion) (n : SnapshotNotification) :
    Except ObservationError String :=
  if s.state ≠ .callbacksStarted then .error (.unexpected .tableScanCompleted s.state)
  else if n.status ≠ some "SUCCEEDED" then .error (.notSucceeded n.status)
  else do
    let table ← qualifiedName (n.scannedCollection.getD "")
    if table ∉ s.expectedTables then .error (.unexpectedTable table)
    else if table ∈ s.callbackTables then .error (.completedTwice table)
    else return table

/-- `TABLE_SCAN_COMPLETED`. -/
def observeScan (n : SnapshotNotification) (s : SnapshotCompletion) : Observed Unit :=
  match s.scannedTable n with
  | .error error => .error error s
  | .ok table => s.declareScan table n

/-- `COMPLETED`. -/
def observeCompleted (s : SnapshotCompletion) : Observed Unit :=
  if s.state ≠ .callbacksStarted then .error (.unexpected .completed s.state) s
  else if s.callbackTables ≠ s.expectedTables then
    .error (.withoutTerminalSet (s.expectedTables \ s.callbackTables)
      (s.callbackTables \ s.expectedTables)) s
  else s.transition
    (if s.countsMatch s.committedRows then .callbacksComplete else .completionNotified)

/-- `observe_notification`. -/
def observeNotification (n : SnapshotNotification) (s : SnapshotCompletion) : Observed Unit :=
  match Observation.parse n.observation with
  | none => .error (.unknownObservation n.observation) s
  | some observation =>
    if s.state = .notRequired then
      if observation ≠ .skipped then .error (.unexpected observation s.state) s
      else s.transition .notRequired
    else match observation with
      | .started =>
        if s.state ≠ .awaitingCallbacks then .error (.unexpected .started s.state) s
        else s.transition .callbacksStarted
      | .inProgress => s.observeProgress .inProgress n
      | .tableChunkInProgress => s.observeProgress .tableChunkInProgress n
      | .tableChunkCompleted => s.observeProgress .tableChunkCompleted n
      | .tableScanCompleted => s.observeScan n
      | .completed => s.observeCompleted
      | .skipped => .error (.unexpected .skipped s.state) s
      | .aborted => .error (.unexpected .aborted s.state) s

/-! ### Streaming -/

/-- `enter_streaming`, with `check_streaming_admission`. -/
def enterStreaming (s : SnapshotCompletion) : Observed Unit :=
  if s.state = .streaming then .ok () s
  else if (s.state, .streaming) ∈ SnapshotState.edges then .ok () { s with state := .streaming }
  else .error (.streamingAdmissionRefused s.state) s

end SnapshotCompletion

end CdcFlight
