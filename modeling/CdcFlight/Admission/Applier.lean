import CdcFlight.Assembler.Retention
import CdcFlight.Offsets.Point
import CdcFlight.Snapshot.Completion

/-!
# Admission of units into commit groups

The callback loop of `applier.py` with `unit_admission.py` and the decisions of
`commit_protocol.commit_group`: records are assembled into units, each unit passes the phase checks
of the snapshot completion model and joins the open group, and a group is committed when the phase
changes, at a policy boundary or at the end of a batch. A raise ends the run; the state it leaves is
kept.

`config.ack_every_record` and `config.resnapshot` are passed on to the assembler, so they are read
off its configuration. The catalog and the statements of a destination transaction are parameters,
over a state of their own. They are handed the units without their records, beside the one thing the
planner reads off the records: the row count that a terminal incremental chunk carries.

## Main definitions

* `CdcFlight.Applier`, `CdcFlight.OpenGroup`, `CdcFlight.AdmissionDecision`.
* `CdcFlight.Applier.admitUnit`, `CdcFlight.Applier.commitGroup`, `CdcFlight.Applier.handle`.
-/

namespace CdcFlight

open Lib

variable {C V D E : Type}

/-! ### Units as admission sees them -/

/-- The prefix of the messages that `heartbeat.action.query` writes. -/
def heartbeatPrefix : String := "cdc_flight_heartbeat"

/-- A heartbeat record, or a heartbeat message. -/
def PendingRecord.isHeartbeat (rec : PendingRecord C V) : Bool :=
  rec.kind = .heartbeat || (rec.kind = .message && rec.messagePrefix = some heartbeatPrefix)

/-- BEGIN and END. -/
def PendingRecord.isMarker (rec : PendingRecord C V) : Bool :=
  rec.kind = .txnBegin || rec.kind = .txnEnd

/-- The test of `idle_heartbeat_unit` on the records of a unit: there is one besides BEGIN and
END, and all such are heartbeats. -/
def heartbeatsOnly (records : List (PendingRecord C V)) : Bool :=
  let rest := records.filter fun rec => !rec.isMarker
  !rest.isEmpty && rest.all PendingRecord.isHeartbeat

/-- `idle_heartbeat_unit`. -/
def idleHeartbeatUnit (unit : CompleteUnit C V) : Bool := heartbeatsOnly unit.records

/-- `is_snapshot_unit`. -/
def isSnapshotUnit (unit : CompleteUnit C V) : Bool :=
  (unit.kind = .snapshotChunk && !unit.incremental) ||
    unit.records.any fun record => record.kind = .snapshotBoundary

/-- The rows that a terminal chunk declares, as the planner reads them. -/
def terminalRows (unit : CompleteUnit C V) : Option ℕ :=
  if unit.kind = .snapshotChunk && unit.snapshotLastForTable then
    unit.records.reverse.findSome? PendingRecord.incrementalRows
  else none

/-- A unit without its records. -/
def CompleteUnit.content (unit : CompleteUnit C V) : CompleteUnit C V :=
  { unit with records := [] }

/-! ### State -/

/-- `CommitResult`. -/
inductive CommitResult
  | empty
  | blocked
  | committed
deriving DecidableEq, Repr

/-- `OpenGroup`. -/
structure OpenGroup (C V : Type) where
  units : List (CompleteUnit C V) := []
  events : ℕ := 0
  nbytes : ℕ := 0
  isSnapshot : Bool := false
  spillCommitId : Option ℕ := none

/-- What admission decided, with the units it decided about. -/
inductive AdmissionDecision (C V : Type)
  /-- The phase a unit belongs to, and whether it is an idle heartbeat. -/
  | classified (unit : CompleteUnit C V) (isSnapshot idle : Bool)
  /-- A unit joined the open group, fenced or not. -/
  | joined (unit : CompleteUnit C V)
  /-- A unit of a throwaway slot was discarded. -/
  | discarded (unit : CompleteUnit C V)
  | committed (trigger : String) (units : List (CompleteUnit C V)) (point : ResumePoint)

/-- The part of `Applier` that admission and commit read and write. -/
structure Applier (C V D : Type) where
  assembler : Assembler C V := {}
  group : OpenGroup C V := {}
  snapshotCompletion : SnapshotCompletion
  resumePoint : ResumePoint
  nextCommitId : ℕ
  /-- The catalog and the destination. -/
  destination : D
  blockedSchemaTables : Finset String := ∅
  error : Option AdmissionRefusal := none
  pendingSnapshotNotifications : List ℕ := []
  /-- The records of discarded units, unit by unit. -/
  pendingDiscardedRecords : List (List (PendingRecord C V)) := []
  /-- The records whose handles were marked as processed, unit by unit. -/
  acknowledged : List (List (PendingRecord C V)) := []
  /-- The records that were marked as processed of a unit whose last record was not. -/
  partlyAcknowledged : List (PendingRecord C V) := []
  acknowledgedNotifications : List ℕ := []
  decisions : List (AdmissionDecision C V) := []

/-- What ends a run. -/
inductive AdmissionFailure (E : Type)
  | assembly (refusal : Refusal)
  | observation (error : ObservationError)
  | refused (refusal : AdmissionRefusal)
  | phaseBoundary (result : CommitResult)
  | notificationInTransaction
  | boundaryWithoutOffset
  | point (error : PointError)
  | destination (error : E)

/-- What a commit hands to the destination. -/
structure CommitContent (C V : Type) where
  trigger : String
  commitId : ℕ
  units : List (CompleteUnit C V)
  terminalRows : List (Option ℕ)
  point : ResumePoint
  blockedSchemaTables : Finset String
  /-- The staged rows. -/
  staged : List (SpillCall C V)

/-- What may raise in a commit once COMMIT was sent. -/
inductive CutOff (E : Type)
  /-- The destination commits, and the answer is lost. -/
  | lostAnswer (error : E)
  /-- After COMMIT, when so many units and notifications were acknowledged and so many records of
  the next unit before its last. -/
  | marking (whole records : ℕ) (error : E)

/-- The catalog and the destination, and the reading of Connect offsets. -/
structure Surroundings (C V D E : Type) where
  connect : PendingRecord C V → ConnectOffsets
  /-- `hold_log_owed_tail` and `catalog.observe_unit`. -/
  observeUnit : CompleteUnit C V → D → Except AdmissionRefusal D
  /-- `snapshots.epoch`. -/
  snapshotEpoch : D → ℕ
  /-- The statements of a destination transaction, up to its COMMIT. -/
  commit : CommitContent C V → D → Except E D
  /-- What raises after that: COMMIT, the check of the lease, or an acknowledgement. -/
  cutOff : CommitContent C V → D → Option (CutOff E) := fun _ _ => none
  /-- `ignored_source_tables`. -/
  ignoredSourceTables : Finset String

/-- A program of the applier. -/
abbrev Admit (C V D E : Type) := EStateM (AdmissionFailure E) (Applier C V D)

namespace Applier

/-- A step that is taken under a condition. -/
def onlyIf (b : Bool) (step : Admit C V D E Unit) : Admit C V D E Unit :=
  if b then step else pure ()

/-- The decision is noted. -/
def note (decision : AdmissionDecision C V) (s : Applier C V D) : Applier C V D :=
  { s with decisions := s.decisions ++ [decision] }

/-- `_reset_group`. -/
def resetGroup (s : Applier C V D) : Applier C V D := { s with group := {} }

/-- A call of the snapshot completion model. -/
def observing {α : Type} (call : SnapshotCompletion → Observed α) : Admit C V D E α := fun s =>
  match call s.snapshotCompletion with
  | .ok a c => .ok a { s with snapshotCompletion := c }
  | .error e c => .error (.observation e) { s with snapshotCompletion := c }

/-- The first batch that is staged for the open group reserves its commit id. In a throwaway
re-snapshot only snapshot rows are staged. -/
def reserveCommitId (cfg : AssemblerConfig C V) (calls : List (SpillCall C V))
    (s : Applier C V D) : Applier C V D :=
  if s.group.spillCommitId.isNone &&
      calls.any fun call => !cfg.discardStreaming || call.snapshot.isSome then
    { s with
      group := { s.group with spillCommitId := some s.nextCommitId }
      nextCommitId := s.nextCommitId + 1 }
  else s

/-- A call of the assembler, with what its spill callback does to the group. -/
def assembling {α : Type} (cfg : AssemblerConfig C V) (call : Assemble C V α) :
    Admit C V D E α := fun s =>
  match call.run s.assembler with
  | .ok a t => .ok a (reserveCommitId cfg (t.spillCalls.drop s.assembler.spillCalls.length)
      { s with assembler := t })
  | .error e t => .error (.assembly e) { s with assembler := t }

/-! ### Commit -/

/-- `group.spill_commit_id or _next_commit_id`. -/
def commitId (s : Applier C V D) : ℕ :=
  if orZero s.group.spillCommitId ≠ 0 then orZero s.group.spillCommitId else s.nextCommitId

/-- What the open group hands to the destination. -/
def content (s : Applier C V D) (trigger : String) (point : ResumePoint) : CommitContent C V where
  trigger := trigger
  commitId := s.commitId
  units := s.group.units.map CompleteUnit.content
  terminalRows := s.group.units.map terminalRows
  point := point
  blockedSchemaTables := s.blockedSchemaTables
  staged := s.assembler.spillCalls

/-- The acknowledgements after a COMMIT: those of the group, of the pending notifications when the
group completes the snapshot, and of the discarded records when it is a snapshot group. -/
def acknowledge (completes : Bool) (d : D) (s : Applier C V D) : Applier C V D :=
  { s with
    destination := d
    acknowledged := s.acknowledged ++ s.group.units.map CompleteUnit.records ++
      if s.group.isSnapshot then s.pendingDiscardedRecords else []
    acknowledgedNotifications := s.acknowledgedNotifications ++
      if completes then s.pendingSnapshotNotifications else []
    pendingSnapshotNotifications := if completes then [] else s.pendingSnapshotNotifications
    pendingDiscardedRecords := if s.group.isSnapshot then [] else s.pendingDiscardedRecords }

/-- The acknowledgements after a COMMIT up to one that raises. What is pending stays, and the group
is given up. -/
def acknowledgeFirst (completes : Bool) (d : D) (whole records : ℕ) (s : Applier C V D) :
    Applier C V D :=
  let units := s.group.units.map CompleteUnit.records
  let notifications := if completes then s.pendingSnapshotNotifications else []
  let discarded := if s.group.isSnapshot then s.pendingDiscardedRecords else []
  { s.resetGroup with
    destination := d
    acknowledged := s.acknowledged ++ units.take whole ++
      discarded.take (whole - units.length - notifications.length)
    partlyAcknowledged := ((units ++ notifications.map (fun _ => []) ++ discarded)[whole]?.getD
      []).dropLast.take records
    acknowledgedNotifications := s.acknowledgedNotifications ++
      notifications.take (whole - units.length) }

/-- The group is committed: the resume point is installed and the group is replaced. -/
def install (trigger : String) (point : ResumePoint) (s : Applier C V D) : Applier C V D :=
  { s with
    resumePoint := point
    nextCommitId := max s.nextCommitId (s.commitId + 1)
    group := {}
    decisions := s.decisions ++
      [.committed trigger (s.group.units.map CompleteUnit.content) point] }

/-- The destination transaction of a group, its acknowledgements and its observation. A raise
before COMMIT rolls the group back. A raise after it finds the transaction durable, and gives the
group up all the same. -/
def commitTransaction (env : Surroundings C V D E) (trigger : String) (completes : Bool) :
    Admit C V D E CommitResult := do
  let s ← get
  match pointFor env.connect s.group.units s.resumePoint s.commitId
      (env.snapshotEpoch s.destination) with
  | .error error =>
    set s.resetGroup
    throw (.point error)
  | .ok point =>
    match env.commit (s.content trigger point) s.destination with
    | .error error =>
      set s.resetGroup
      throw (.destination error)
    | .ok d =>
      match env.cutOff (s.content trigger point) s.destination with
      | some (.lostAnswer error) =>
        set { s.resetGroup with destination := d }
        throw (.destination error)
      | some (.marking whole records error) =>
        set (s.acknowledgeFirst completes d whole records)
        throw (.destination error)
      | none =>
        set (s.acknowledge completes d)
        observing (SnapshotCompletion.observeCommittedGroup s.group.units)
        modify (install trigger point)
        return .committed

/-- `commit_group`. -/
def commitGroup (env : Surroundings C V D E) (trigger : String) :
    Admit C V D E CommitResult := do
  let s ← get
  if s.group.units.isEmpty then return .empty
  else match s.snapshotCompletion.commitReady s.group.units with
    | .error error => throw (.observation error)
    | .ok false => return .blocked
    | .ok true =>
      match s.snapshotCompletion.willCompleteAfterCommit s.group.units with
      | .error error => throw (.observation error)
      | .ok completes => commitTransaction env trigger completes

/-! ### Admission -/

/-- A refusal that was attached to a record while it was sealed: its relation is blocked, or the
run ends when it names none. -/
def takeRefusal (refusal : AdmissionRefusal) : Admit C V D E Unit :=
  if !truthy refusal.sourceSchema || !truthy refusal.sourceTable then throw (.refused refusal)
  else modify fun s => { s with
    blockedSchemaTables := insert
      (refusal.sourceSchema.getD "" ++ "." ++ refusal.sourceTable.getD "") s.blockedSchemaTables
    error := s.error.or (some refusal) }

/-- `hold_log_owed_tail` and `catalog.observe_unit`. -/
def observeUnit (env : Surroundings C V D E) (unit : CompleteUnit C V) : Admit C V D E Unit := do
  let s ← get
  match env.observeUnit unit.content s.destination with
  | .error refusal => throw (.refused refusal)
  | .ok d => set { s with destination := d }

/-- `check_streaming_admission`: the edge is checked, not taken. -/
def checkStreamingAdmission : Admit C V D E Unit :=
  observing fun c =>
    match c.enterStreaming with
    | .ok _ _ => .ok () c
    | .error e _ => .error e c

/-- The group must commit before the phase can be crossed. -/
def mustCommit (result : CommitResult) : Admit C V D E Unit :=
  if result = .committed then pure () else throw (.phaseBoundary result)

/-- What `_admit_unit` does to a group of the other phase before a streaming unit: one that holds
the boundary of the snapshot is committed, else the phase edge is checked. -/
def crossBoundary (env : Surroundings C V D E) (idle : Bool) : Admit C V D E Unit := do
  let s ← get
  if !s.group.units.isEmpty && s.group.isSnapshot &&
      SnapshotCompletion.hasBoundary s.group.units then
    let result ← commitGroup env "snapshot_chunk"
    onlyIf (result ≠ .committed && !idle) checkStreamingAdmission
    mustCommit result
  else onlyIf (!idle) checkStreamingAdmission

/-- A group is of one phase: one of the other phase is committed first. -/
def changePhase (env : Surroundings C V D E) (isSnapshot wasSnapshot : Bool) :
    Admit C V D E Unit := do
  let s ← get
  onlyIf (!s.group.units.isEmpty && isSnapshot ≠ s.group.isSnapshot) do
    let result ← commitGroup env (if wasSnapshot then "snapshot_chunk" else "phase")
    mustCommit result

/-- A transaction at or below the durable position. -/
def fences (s : Applier C V D) (unit : CompleteUnit C V) : Bool :=
  unit.kind = .txn && unit.lastLsn ≠ 0 && decide (unit.lastLsn ≤ s.resumePoint.lastLsn)

/-- The unit as it joins the group: fenced when it is already durable, and with its last record
only unless every record is acknowledged. -/
def enrol (cfg : AssemblerConfig C V) (s : Applier C V D) (unit : CompleteUnit C V) :
    CompleteUnit C V :=
  { unit with
    fenced := unit.fenced || s.fences unit
    records := if cfg.keepAllRecords then unit.records else lastOnly unit.records }

/-- `append_unit`. -/
def appendUnit (cfg : AssemblerConfig C V) (unit : CompleteUnit C V) (isSnapshot : Bool)
    (s : Applier C V D) : Applier C V D :=
  { s with
    group := { s.group with
      units := s.group.units ++ [s.enrol cfg unit]
      isSnapshot := if s.group.units.isEmpty then isSnapshot else s.group.isSnapshot
      events := s.group.events + unit.eventCount
      nbytes := s.group.nbytes + unit.nbytes }
    decisions := s.decisions ++ [.joined (s.enrol cfg unit).content] }

/-- The part of `_admit_unit` after the classification of the unit. -/
def admitAs (cfg : AssemblerConfig C V) (env : Surroundings C V D E) (unit : CompleteUnit C V)
    (isSnapshot idle : Bool) : Admit C V D E Unit := do
  modify (note (.classified unit.content isSnapshot idle))
  let s ← get
  onlyIf (!isSnapshot) (crossBoundary env idle)
  changePhase env isSnapshot s.group.isSnapshot
  onlyIf (!isSnapshot && !idle) (observing SnapshotCompletion.enterStreaming)
  modify (appendUnit cfg unit isSnapshot)

/-- `_admit_unit`. -/
def admitUnit (cfg : AssemblerConfig C V) (env : Surroundings C V D E) (unit : CompleteUnit C V) :
    Admit C V D E Unit := do
  forM unit.admissionRefusals takeRefusal
  observeUnit env unit
  admitAs cfg env unit (isSnapshotUnit unit) (idleHeartbeatUnit unit)

/-- `mark_ignored_snapshot`. -/
def markIgnoredSnapshot (env : Surroundings C V D E) (unit : CompleteUnit C V) :
    CompleteUnit C V :=
  if unit.kind = .snapshotChunk && !unit.incremental && truthy unit.schema &&
      truthy unit.table &&
      decide (unit.schema.getD "" ++ "." ++ unit.table.getD "" ∈ env.ignoredSourceTables) then
    { unit with ignored := true }
  else unit

/-- `discard_resnapshot_unit`, on a unit it discards. -/
def discardResnapshotUnit (unit : CompleteUnit C V) (s : Applier C V D) : Applier C V D :=
  { s with
    pendingDiscardedRecords := s.pendingDiscardedRecords ++ [unit.records]
    decisions := s.decisions ++ [.discarded { unit with fenced := true }.content] }

/-- The group is rolled back by a refusal that names a relation. -/
def containRefusal (failure : AdmissionFailure E) (s : Applier C V D) : Applier C V D :=
  match failure with
  | .refused refusal =>
    if truthy refusal.sourceSchema && truthy refusal.sourceTable then s.resetGroup else s
  | _ => s

/-- `add_unit`. -/
def addUnit (cfg : AssemblerConfig C V) (env : Surroundings C V D E) (unit : CompleteUnit C V) :
    Admit C V D E Unit := fun s =>
  let unit := markIgnoredSnapshot env unit
  if cfg.discardStreaming && unit.kind = .txn then .ok () (s.discardResnapshotUnit unit)
  else match (admitUnit cfg env unit).run s with
    | .ok a t => .ok a t
    | .error failure t => .error failure (t.containRefusal failure)

end Applier

/-! ### Callbacks -/

/-- What the callback loop is given. -/
inductive SourceCallback (C V : Type)
  /-- A source record. -/
  | record (input : Decoded C V)
  /-- A snapshot notification, with its decoded record and its handle. -/
  | notification (notice : SnapshotNotification) (decoded : PendingRecord C V) (handle : ℕ)
  /-- A notification of an incremental snapshot: the decoded record with the row count it
  declares, and for a finished table its name and whether it was scanned to the end. -/
  | incrementalNotice (decoded : PendingRecord C V) (finished : Option (String × String × Bool))
  /-- A requested delete policy is activated before the next record. -/
  | policyBoundary
  /-- The end of a batch; whether a group of so many events and bytes is due. -/
  | batchEnd (trigger : String) (due : ℕ → ℕ → Bool)

/-- The unit of an incremental notification. -/
def incrementalNoticeUnit (decoded : PendingRecord C V)
    (finished : Option (String × String × Bool)) : CompleteUnit C V :=
  let record := { decoded with kind := .heartbeat, schema := none, table := none, op := none }
  match finished with
  | some (schema, table, scanned) =>
    { kind := .snapshotChunk
      records := [record]
      schema := some schema
      table := some table
      nbytes := record.nbytes
      incremental := true
      snapshotLastForTable := scanned }
  | none =>
    { kind := .control
      records := [record]
      nbytes := record.nbytes
      lastLsn := orZero record.lsn
      commitLsn := record.lsn }

/-- The boundary that `COMPLETED` is decoded to. -/
def snapshotBoundary (decoded : PendingRecord C V) : PendingRecord C V :=
  { decoded with kind := .snapshotBoundary, raw := none }

namespace Applier

variable (cfg : AssemblerConfig C V) (env : Surroundings C V D E)

/-- The units that the assembler returns are added one by one. -/
def addUnits (units : List (CompleteUnit C V)) : Admit C V D E Unit :=
  forM units (addUnit cfg env)

/-- The Connect maps of a record are both there. -/
def hasOffsets (rec : PendingRecord C V) : Bool :=
  ((env.connect rec).partition.getD ∅ ≠ ∅) && ((env.connect rec).offset.getD ∅ ≠ ∅)

/-- A snapshot notification is observed before it is kept for acknowledgement; `COMPLETED` also
ends the open chunk and brings the boundary. -/
def handleNotification (notice : SnapshotNotification) (decoded : PendingRecord C V)
    (handle : ℕ) : Admit C V D E Unit := do
  let s ← get
  let completed := notice.observation = Observation.completed.name
  if s.assembler.txn.isSome then throw .notificationInTransaction
  else if completed && !hasOffsets env decoded then throw .boundaryWithoutOffset
  else
    observing (SnapshotCompletion.observeNotification notice)
    modify fun s => { s with
      pendingSnapshotNotifications := s.pendingSnapshotNotifications ++ [handle] }
    onlyIf completed do
      let units ← assembling cfg (feedSnapshotBoundary (snapshotBoundary decoded))
      addUnits cfg env units

/-- A group that is due is committed. Rows staged for the open unit belong to the transaction of
the group, which then has to wait. -/
def commitDue (trigger : String) (due : ℕ → ℕ → Bool) : Admit C V D E Unit := do
  let s ← get
  onlyIf (!s.group.units.isEmpty && !s.assembler.openUnitHasSpilled &&
      due s.group.events s.group.nbytes) do
    let _ ← commitGroup env trigger

/-- One step of the callback loop. -/
def handle : SourceCallback C V → Admit C V D E Unit
  | .record input => do
    let units ← assembling cfg (feed cfg input.record)
    addUnits cfg env units
  | .notification notice decoded handle => handleNotification cfg env notice decoded handle
  | .incrementalNotice decoded finished =>
    addUnit cfg env (incrementalNoticeUnit decoded finished)
  | .policyBoundary => do
    let s ← get
    onlyIf (s.assembler.txn.isNone && !s.group.units.isEmpty) do
      let _ ← commitGroup env "delete_policy_boundary"
  | .batchEnd trigger due => commitDue env trigger due

/-- The callback loop. -/
def run (callbacks : List (SourceCallback C V)) : Admit C V D E Unit :=
  forM callbacks (handle cfg env)

end Applier

end CdcFlight
