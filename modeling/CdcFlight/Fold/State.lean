import CdcFlight.RowPatch
import CdcFlight.Lib.Run

/-!
# The state of a table fold

`table_work.TableWork`: everything one destination table needs from one commit group. The fold
keeps, for every identity key, the list of physical rows that currently wear it. The row the
destination already held is the sentinel `Entry.start`, whose existence and content are asked of
the destination through `Probe` only where attribution needs them.

A fold step is a program on this state that may raise and that keeps the state it had reached when
it raised, as the mutations of the source do.

## Main definitions

* `CdcFlight.Token`, `CdcFlight.Entry`: identity keys and the rows that wear them.
* `CdcFlight.TableWork`, `CdcFlight.Fold`: the state and the programs on it.
* `CdcFlight.Probe`: the questions asked of the destination.
* `CdcFlight.TableWork.create`, `CdcFlight.observe`: the two halves of `work_for`.
-/

namespace CdcFlight

open Lib

/-- A fold key: for each key column its descriptor fingerprint and its value. The source hashes
the value; the raw key (`key_values`) is the list of the values. -/
abbrev Token (V : Type) := List (String × Option V)

/-- `_raw_key`. -/
def rawKey {V : Type} (key : Token V) : List (Option V) := key.map Prod.snd

/-- One row that wears a key: the destination's own row, a sparse or complete image, or the sparse
image of a row that moved here from another key (`RowMove`). -/
inductive Entry (C V : Type)
  | start
  | patch (p : RowPatch C V)
  | move (sourceKey targetKey : Token V) (p : RowPatch C V)
deriving DecidableEq

/-- `event_ledger.payload_digest`, as the material it hashes. Mappings are sorted before they are
hashed, so each stands as its lookup function. -/
structure PayloadDigest (C V : Type) where
  operation : Option Op
  key : Option (C → Option (Option V))
  before : Option (C → Option (Option V))
  after : Option (C → Option (Option V))
  keyFingerprints : C → Option String
  beforeFingerprints : C → Option String
  afterFingerprints : C → Option String
  snapshotIdentity : Option String
  /-- Prefix, content and transactional flag of a logical message. -/
  message : Option (Option String × Option (List UInt8) × Option Bool)

/-- `event_ledger.payload_digest`. -/
def payloadDigest {C V : Type} [DecidableEq C] (event : PendingRecord C V) :
    PayloadDigest C V where
  operation := event.op
  key := event.key.map Dict.get?
  before := event.before.map Dict.get?
  after := event.after.map Dict.get?
  keyFingerprints c := (event.keyDescriptors.get? c).map (·.fingerprint)
  beforeFingerprints c := (event.beforeDescriptors.get? c).map (·.fingerprint)
  afterFingerprints c := (event.afterDescriptors.get? c).map (·.fingerprint)
  snapshotIdentity := event.snapshotIdentity
  message := if event.kind = .message then
      some (event.messagePrefix, event.messageContent, event.messageTransactional)
    else none

/-- A row to be written: source values and applier columns. -/
structure NewRow (C V : Type) where
  values : Dict C (Option V)
  rowMeta : RowMeta

/-- `keyless_work.KeylessOperation`: one source-order physical operation. -/
structure KeylessOperation (C V : Type) where
  eventId : String
  operation : Option Op
  after : Option (NewRow C V) := none
  before : Option (Image C V) := none
  imageDigest : Option (PayloadDigest C V) := none
  deleteMode : DeleteMode := .hard
  sourceLsn : Option ℕ := none
  txnId : Option String := none
  totalOrder : Option PyInt := none

/-- `table_work.TableWork`. `keyColumns` is empty both before the identity is known and for the
identity `(cdcf_event_id,)` of a keyless table. -/
structure TableWork (C V : Type) where
  target : String
  keyColumns : List C := []
  keyless : Bool := false
  descriptors : Dict C Descriptor := ∅
  /-- The source columns with a native type, under the descriptor that gave it; its fingerprint is
  `native_fingerprints`. -/
  nativeColumns : Dict C Descriptor := ∅
  /-- The rows that currently wear each key, in source order. -/
  live : Dict (Token V) (List (Entry C V)) := ∅
  /-- Keys holding two or more concrete rows. -/
  multi : Finset (Token V) := ∅
  /-- Cached answers of `Probe.startExists`. -/
  startPresent : Dict (Token V) Bool := ∅
  snapshot : Bool := false
  incremental : Bool := false
  incrementalKeys : Finset (Token V) := ∅
  cdcKeys : Finset (Token V) := ∅
  events : ℕ := 0
  truncated : Bool := false
  truncates : ℕ := 0
  truncateMarks : List ℕ := []
  identified : Bool := false
  sourceSchema : Option String := none
  sourceTable : Option String := none
  /-- Keys whose last row was deleted and not replaced. -/
  deletedKeys : Finset (Token V) := ∅
  keylessOperations : List (KeylessOperation C V) := []
  keylessEventIds : Finset String := ∅
  keylessLedger : List (String × Option Op × PayloadDigest C V) := []
  softDeletes : Dict (Token V) (KeylessOperation C V) := ∅
  deleteEffects : Dict String (KeylessOperation C V) := ∅
  deleteMode : DeleteMode := .hard
  deletePolicyEpoch : ℕ := 1
  deletePolicyDigest : Option String := none
  previousDeleteMode : Option DeleteMode := none
  policyEpoch : ℕ := 0
  policyDigest : Option String := none

/-- A program on the fold state. -/
abbrev Fold (C V : Type) := EStateM Refusal (TableWork C V)

/-- What the fold asks of the destination. -/
structure Probe (C V : Type) where
  /-- Does the destination hold a row under the key, from before this group? -/
  startExists : TableWork C V → Token V → Bool
  /-- Is the destination's row under the key the one the image describes? `none` when no column of
  the image can be compared. -/
  startMatches : TableWork C V → Token V → Image C V → Option Bool
  /-- Has the keyless event already been committed? -/
  keylessEventApplied : TableWork C V → String → Bool

variable {C V : Type}

/-- An error about the table. -/
def TableWork.refusal (item : TableWork C V) (errorClass : ErrorClass) (text : String) :
    Refusal where
  errorClass := errorClass
  target := item.target
  sourceSchema := item.sourceSchema
  sourceTable := item.sourceTable
  message := item.target ++ text

/-- The end of every `_missing_toast_base` text. -/
def repairText : String :=
  "; refusing the commit group so automatic table-scoped refetch/resnapshot can repair the base"

/-- `_missing_toast_base`. -/
def missingToastBase {α : Type} (reason : String) : Fold C V α := do
  let item ← get
  throw (item.refusal .toastBaseMissing (": " ++ reason ++ repairText))

/-- The first half of `work_for`: the item of a table seen for the first time. -/
def TableWork.create (target : String) (event : PendingRecord C V) (snapshot incremental : Bool)
    (deleteMode : Option DeleteMode) : TableWork C V where
  target := target
  snapshot := snapshot
  incremental := incremental
  deleteMode := (deleteMode.or event.deleteMode).getD .hard
  deletePolicyEpoch := if event.deletePolicyEpoch = 0 then 1 else event.deletePolicyEpoch
  deletePolicyDigest := event.deletePolicyDigest
  policyEpoch := event.policyEpoch
  policyDigest := event.policyDigest

/-- The identity `work_for` takes from the first event that is not a truncate. -/
def TableWork.identify (item : TableWork C V) (event : PendingRecord C V) : TableWork C V :=
  if !item.identified && event.kind ≠ .truncate then
    { item with
      identified := true
      keyless := event.key.isNone
      keyColumns := (event.key.getD ∅).keys }
  else item

/-- The relation `work_for` records from the first event that names one. -/
def TableWork.recordSource (item : TableWork C V) (event : PendingRecord C V) : TableWork C V :=
  if item.sourceSchema.isNone && truthy event.schema then
    { item with sourceSchema := event.schema, sourceTable := event.table }
  else item

/-- The second half of `work_for`: refuse a changed delete mode, record the relation and the
identity. -/
def observe (event : PendingRecord C V) (deleteMode : Option DeleteMode) : Fold C V Unit := do
  let item ← get
  if ((deleteMode.or event.deleteMode).getD item.deleteMode) ≠ item.deleteMode then
    throw {
      errorClass := .schemaEvolutionRefused
      target := item.target
      sourceSchema := event.schema
      sourceTable := event.table
      message := item.target ++ ": delete mode changed inside one admitted source unit; " ++
        "the unit must be replayed at a policy boundary" }
  else set ((item.recordSource event).identify event)

end CdcFlight
