import CdcFlight.Scd2.Token

/-!
# Row versions of an SCD2 relation

`scd2.apply_event` and `scd2.apply_truncate`: the history table of one relation bundle, written on
the caller's destination transaction. An event claims its identity in the shared ledger and is
then put into the history of its source identity: after the current version, or between two
versions when it is late. A deletion is a version of its own, with the operation `d`; a truncate
closes every current version and leaves a marker row.

A program that raises leaves its transaction to be rolled back, so only the state after a return
is modelled. `canonical_json` of a mapping is the set of its items. The JSON of a key is never
that of a truncate marker, as `__table__` is not a normalized column name.

## Main definitions

* `CdcFlight.Scd2.Bundle`, `CdcFlight.Scd2.Event`, `CdcFlight.Scd2.TableEvent`: the arguments.
* `CdcFlight.Scd2.HistoryRow`, `CdcFlight.Scd2.Store`: the tables written.
* `CdcFlight.Scd2.applyEvent`, `CdcFlight.Scd2.applyTruncate`.
-/

namespace CdcFlight.Scd2

open Lib

variable {C V : Type} [DecidableEq C] [DecidableEq V] [ToString C]

/-! ### Arguments -/

/-- `event_ledger.canonical_json` of a mapping. -/
def canonicalJson (image : Image C V) : Finset (C × Option V) := image.items.toFinset

/-- A column of a bundle: its SQL type, when the descriptor has a native one, and
`encode_value` under its descriptor, or its error. -/
structure BundleColumn (V : Type) where
  sqlType : Option String := some "VARCHAR"
  encode : Option V → Except String (Option V) := .ok

/-- `SCD2RelationBundle`. -/
structure Bundle (C V : Type) where
  sourceSchema : String
  sourceTable : String
  targetTable : String
  columns : Dict C (BundleColumn V)
  keyColumns : List C
  relationGeneration : String

/-- The operations of a row event. -/
inductive RowOperation
  | create
  | read
  | update
  | delete
deriving DecidableEq, Repr

/-- The operation code of a row event. -/
def RowOperation.op : RowOperation → Op
  | .create => .create
  | .read => .read
  | .update => .update
  | .delete => .delete

/-- `event.operation in {"c", "r"}`. -/
def RowOperation.creates : RowOperation → Bool
  | .create => true
  | .read => true
  | .update => false
  | .delete => false

/-- `SCD2Event`, as `from_pending` builds it: the operation is a row operation and the key is
present. -/
structure Event (C V : Type) where
  pipeline : String
  targetTable : String
  sourceSchema : String
  sourceTable : String
  operation : RowOperation
  key : Image C V
  before : Option (Image C V) := none
  after : Option (Image C V) := none
  identity : EventIdentity
  observedAt : Option ℕ := none

/-- `SCD2Event.event_id`: `from_pending` takes it from the identity. -/
def Event.eventId (event : Event C V) : String := event.identity.eventId

/-- `SCD2TableEvent`. -/
structure TableEvent where
  pipeline : String
  targetTable : String
  sourceSchema : String
  sourceTable : String
  identity : EventIdentity

/-- The `__cdcf_scd2_source_identity` column: the JSON of a key, or of a table name. -/
inductive SourceIdentity (C V : Type)
  | row (key : Finset (C × Option V))
  | table (name : String)
deriving DecidableEq

/-- `SCD2Event.source_identity`. -/
def Event.sourceIdentity (event : Event C V) : SourceIdentity C V :=
  .row (canonicalJson event.key)

/-- The refusals of a row event name its relation and target. -/
def Event.refused {α : Type} (event : Event C V) (message : String) : Except Raised α :=
  .error (.identityRefused message (some event.sourceSchema) (some event.sourceTable)
    (some event.targetTable))

/-! ### Tables -/

/-- A row of the history table. An open end is `⊤`, the SQL NULL. -/
structure HistoryRow (C V : Type) where
  values : Dict C (Option V)
  sourceIdentity : SourceIdentity C V
  relationGeneration : Option String
  validFrom : String
  validTo : WithTop String
  current : Bool
  operation : Op
  eventId : String
  commitLsn : Option ℕ
  txnId : Option String
  observedAt : Option ℕ
  policyEpoch : ℕ
  payloadDigest : String
  keyJson : SourceIdentity C V
  imageJson : Option (Finset (C × Option V))
deriving DecidableEq

/-- The tables of the destination transaction: the columns of the history table once it is
created, its rows, and the shared event ledger. -/
structure Store (C V : Type) where
  columns : Option (List C) := none
  rows : List (HistoryRow C V) := []
  ledger : List LedgerRow := []

/-- The metadata columns of the history table. -/
def historyMeta : List String :=
  ["__cdcf_scd2_source_identity", "__cdcf_scd2_relation_generation", "__cdcf_scd2_valid_from",
    "__cdcf_scd2_valid_to", "__cdcf_scd2_is_current", "__cdcf_scd2_operation",
    "__cdcf_scd2_event_id", "__cdcf_scd2_commit_lsn", "__cdcf_scd2_txn_id",
    "__cdcf_scd2_observed_at", "__cdcf_scd2_policy_epoch", "__cdcf_scd2_payload_digest",
    "__cdcf_scd2_key_json", "__cdcf_scd2_image_json"]

/-- The refusals of a bundle name its relation and target. -/
def Bundle.refused {α : Type} (bundle : Bundle C V) (message : String) : Except Raised α :=
  .error (.identityRefused message (some bundle.sourceSchema) (some bundle.sourceTable)
    (some bundle.targetTable))

/-- `ensure_bundle`: the checks of `_source_columns` and `_sql_type`, the history table created
when it is missing, and the view over it, which needs every column of the bundle. -/
def ensureBundle (bundle : Bundle C V) (store : Store C V) : Except Raised (Store C V) :=
  let columns := bundle.columns.keys
  if columns.any (fun column => toString column ∈ historyMeta) then
    bundle.refused "source column(s) collide with SCD2 metadata"
  else if bundle.keyColumns.any (fun column => column ∉ columns) then
    bundle.refused "SCD2 key column(s) are not in the source descriptor"
  else if bundle.columns.values.any (fun column => column.sqlType.isNone) then
    .error (.identityRefused "SCD2 source column has no catalog-authoritative native type"
      none none none)
  else
    let existing := store.columns.getD columns
    if columns.any (fun column => column ∉ existing) then
      .error (.destination "the history table does not have the column")
    else .ok { store with columns := some existing }

/-- `claim_event_ledger` on the transaction of the history. -/
def Store.claim (store : Store C V) (identity : EventIdentity) (pipeline targetTable : String) :
    Except Raised (Bool × Store C V) :=
  match claimEventLedger store.ledger identity pipeline targetTable identity.sourceLsn with
  | .error collision => .error (.identityCollision collision)
  | .ok (replayed, ledger) => .ok (replayed, { store with ledger })

/-- `_history_rows`: the rows of an identity, by `valid_from`. -/
def historyRows (rows : List (HistoryRow C V)) (identity : SourceIdentity C V) :
    List (HistoryRow C V) :=
  (rows.filter (·.sourceIdentity = identity)).insertionSort
    fun row row' => row.validFrom ≤ row'.validFrom

/-- `_truncate_boundary`: the latest truncate marker. -/
def truncateBoundary (rows : List (HistoryRow C V)) : Option String :=
  ((rows.filter (·.operation = .truncate)).map (·.validFrom)).max?

/-- The assignment of `_close`. -/
def HistoryRow.close (row : HistoryRow C V) (token : String) : HistoryRow C V :=
  { row with validTo := token, current := false }

/-- `_close`: the update by event id. -/
def closeRow (rows : List (HistoryRow C V)) (eventId token : String) : List (HistoryRow C V) :=
  rows.map fun row => if row.eventId = eventId then row.close token else row

/-- `_insert`, under the uniqueness of the event id. -/
def insertRow (rows : List (HistoryRow C V)) (row : HistoryRow C V) :
    Except Raised (List (HistoryRow C V)) :=
  if rows.any (·.eventId = row.eventId) then
    .error (.destination "Constraint Error: duplicate __cdcf_scd2_event_id")
  else .ok (rows ++ [row])

/-! ### Row events -/

/-- `_complete_image`: the raw and the encoded value of every column of the bundle. -/
def completeImage (bundle : Bundle C V) (image : Option (Image C V)) (event : Event C V)
    (label : String) : Except Raised (Image C V × Image C V) :=
  let source := event.sourceSchema ++ "." ++ event.sourceTable
  match image with
  | none => event.refused (source ++ ": SCD2 " ++ label ++
      " is missing source column(s); refusing to guess a predecessor")
  | some image =>
    if bundle.columns.keys.any (fun column => !image.contains column) then
      event.refused (source ++ ": SCD2 " ++ label ++
        " is missing source column(s); refusing to guess a predecessor")
    else
      let raw := bundle.columns.filterMapValues fun column _ => image.get? column
      let encoded := bundle.columns.filterMapValues fun column codec =>
        (image.get? column).bind fun value => (codec.encode value).toOption
      if bundle.columns.keys.any (fun column => !encoded.contains column) then
        event.refused (source ++ ": SCD2 " ++ label ++ " value is not natively bindable")
      else .ok (raw, encoded)

/-- The image a version keeps: the after-image, and for a deletion the before-image. -/
def Event.image (bundle : Bundle C V) (event : Event C V) :
    Except Raised (Image C V × Image C V) :=
  match event.operation with
  | .delete => completeImage bundle event.before event "before-image"
  | .create => completeImage bundle event.after event "after-image"
  | .read => completeImage bundle event.after event "after-image"
  | .update => completeImage bundle event.after event "after-image"

/-- `_verify_before`. -/
def verifyBefore (event : Event C V) (predecessor : HistoryRow C V) : Except Raised Unit :=
  let source := event.sourceSchema ++ "." ++ event.sourceTable
  match event.before with
  | none => event.refused (source ++ ": " ++ event.operation.op.code ++
      " has no before-image for predecessor verification")
  | some before =>
    if predecessor.imageJson = some (canonicalJson before) then .ok ()
    else event.refused (source ++ ": SCD2 " ++ event.operation.op.code ++
      " before-image does not match its source-order predecessor")

/-- Where a new version goes: as current version, with the version it closes if any; or between
two versions, closing the earlier one and ending where the later one starts. -/
inductive Splice (C V : Type)
  | fresh
  | after (current : HistoryRow C V)
  | between (predecessor : HistoryRow C V) (validTo : WithTop String)

/-- `row["from"] < token` from the end. -/
def predecessor (rows : List (HistoryRow C V)) (token : String) : Option (HistoryRow C V) :=
  rows.reverse.find? fun row => decide (row.validFrom < token)

/-- `row["from"] > token` from the start. -/
def successor (rows : List (HistoryRow C V)) (token : String) : Option (HistoryRow C V) :=
  rows.find? fun row => decide (token < row.validFrom)

/-- The only current version of an identity. -/
def currentRow (event : Event C V) (rows : List (HistoryRow C V)) :
    Except Raised (Option (HistoryRow C V)) :=
  match rows.filter (·.current) with
  | [] => .ok none
  | [row] => .ok (some row)
  | more => event.refused (event.targetTable ++ ": SCD2 identity has " ++
      toString more.length ++ " current versions")

/-- `late`: the token is below the start of the current version. -/
def late (current : Option (HistoryRow C V)) (token : String) : Bool :=
  match current with
  | none => false
  | some row => decide (token < row.validFrom)

/-- The predecessor checks of an update or deletion, and of a late creation. -/
def checkPredecessor (event : Event C V) (pred : Option (HistoryRow C V)) (isLate : Bool) :
    Except Raised Unit :=
  if event.operation.creates then
    if isLate && pred.isNone then
      event.refused (event.targetTable ++ ": late " ++ event.operation.op.code ++
        " would precede the known history boundary; refusing to guess an earlier version")
    else .ok ()
  else
    match pred with
    | none => event.refused (event.targetTable ++ ": " ++ event.operation.op.code ++
        " has no source-order predecessor")
    | some row => verifyBefore event row

/-- The place of an event among the versions of its identity that `apply_event` has read, in the
order of its checks. -/
def splice (event : Event C V) (token : String) (rows : List (HistoryRow C V))
    (current : Option (HistoryRow C V)) (boundary : Option String) :
    Except Raised (Splice C V) :=
  if rows.isEmpty then
    if event.operation.creates then .ok .fresh
    else event.refused (event.targetTable ++ ": " ++ event.operation.op.code ++
      " has no predecessor in SCD2 history")
  -- A truncate closes every lineage but is no row DELETE: a later INSERT or READ starts afresh.
  else if current.isNone && event.operation.creates &&
      boundary.any (fun b => decide (b < token)) then
    .ok .fresh
  else do
    checkPredecessor event (predecessor rows token) (late current token)
    match current with
    | none => event.refused (event.targetTable ++ ": SCD2 history has no current predecessor")
    | some row =>
      if token < row.validFrom then
        match predecessor rows token with
        | none => event.refused (event.targetTable ++ ": late event has no verified predecessor")
        | some pred => .ok (.between pred
            (match successor rows token with
              | none => ⊤
              | some next => (next.validFrom : WithTop String)))
      else if event.operation.creates ∧ token ≤ row.validFrom then
        event.refused (event.targetTable ++ ": create is not newer than the current version")
      else .ok (.after row)

/-- The row of an event: what `_insert` binds, with the end and the current flag of the place the
event goes to. -/
def Event.historyRow (event : Event C V) (token : String) (raw encoded : Image C V)
    (validTo : WithTop String) (current : Bool) : HistoryRow C V where
  values := encoded
  sourceIdentity := event.sourceIdentity
  relationGeneration := event.identity.relationGeneration
  validFrom := token
  validTo := validTo
  current := current
  operation := event.operation.op
  eventId := event.eventId
  commitLsn := event.identity.commitLsn
  txnId := event.identity.txnId
  observedAt := event.observedAt
  policyEpoch := event.identity.policyEpoch
  payloadDigest := event.identity.payloadDigest
  keyJson := .row (canonicalJson event.key)
  imageJson := some (canonicalJson raw)

/-- The close and the insert of `apply_event`. -/
def writeSplice (rows : List (HistoryRow C V)) (token : String)
    (row : WithTop String → Bool → HistoryRow C V) :
    Splice C V → Except Raised (List (HistoryRow C V))
  | .fresh => insertRow rows (row ⊤ true)
  | .after current => insertRow (closeRow rows current.eventId token) (row ⊤ true)
  | .between pred validTo => insertRow (closeRow rows pred.eventId token) (row validTo false)

/-- `SCD2ApplyResult`. -/
structure ApplyResult where
  eventId : String
  replayed : Bool
  orderToken : String
  current : Bool
deriving DecidableEq, Repr

/-- Whether the version written is the current one. -/
def Splice.isCurrent : Splice C V → Bool
  | .fresh => true
  | .after _ => true
  | .between _ _ => false

/-- The part of `apply_event` after a first claim. -/
def applyNew (bundle : Bundle C V) (event : Event C V) (token : String)
    (rows : List (HistoryRow C V)) : Except Raised (List (HistoryRow C V) × Bool) := do
  let versions := historyRows rows event.sourceIdentity
  let current ← currentRow event versions
  if versions.any (·.validFrom = token) then
    event.refused (event.targetTable ++ ": two source events share SCD2 order token " ++ token)
  else
    let image ← event.image bundle
    let place ← splice event token versions current (truncateBoundary rows)
    let rows ← writeSplice rows token (event.historyRow token image.1 image.2) place
    return (rows, place.isCurrent)

/-- **`apply_event`**: one row version, or its replay as an exact ledger no-op. -/
def applyEvent (bundle : Bundle C V) (event : Event C V) (store : Store C V) :
    Except Raised (Store C V × ApplyResult) :=
  if event.identity.relationGeneration ≠ some bundle.relationGeneration then
    event.refused (event.sourceSchema ++ "." ++ event.sourceTable ++
      ": event relation generation does not match the SCD2 bundle; refusing a " ++
      "cross-generation splice")
  else do
    let token ← transactionOrderToken event.identity
    let store ← ensureBundle bundle store
    let claimed ← store.claim event.identity event.pipeline event.targetTable
    if claimed.1 then
      return (claimed.2, ⟨event.eventId, true, token, false⟩)
    else
      let written ← applyNew bundle event token claimed.2.rows
      return ({ claimed.2 with rows := written.1 }, ⟨event.eventId, false, token, written.2⟩)

/-! ### Truncates -/

/-- The identity of the marker of a table. -/
def TableEvent.sourceIdentity (event : TableEvent) : SourceIdentity C V :=
  .table (event.sourceSchema ++ "." ++ event.sourceTable)

/-- The marker row of a truncate: no image, no end, not current. -/
def TableEvent.marker (bundle : Bundle C V) (event : TableEvent) (token : String) :
    HistoryRow C V where
  values := bundle.columns.filterMapValues fun _ _ => some none
  sourceIdentity := event.sourceIdentity
  relationGeneration := event.identity.relationGeneration
  validFrom := token
  validTo := ⊤
  current := false
  operation := .truncate
  eventId := event.identity.eventId
  commitLsn := event.identity.commitLsn
  txnId := event.identity.txnId
  observedAt := none
  policyEpoch := event.identity.policyEpoch
  payloadDigest := event.identity.payloadDigest
  keyJson := event.sourceIdentity
  imageJson := none

/-- The update of `apply_truncate`: every current version is closed. -/
def closeCurrent (rows : List (HistoryRow C V)) (token : String) : List (HistoryRow C V) :=
  rows.map fun row => if row.current then row.close token else row

/-- **`apply_truncate`**: close the current versions and record one marker. -/
def applyTruncate (bundle : Bundle C V) (event : TableEvent) (store : Store C V) :
    Except Raised (Store C V × ApplyResult) := do
  let store ← ensureBundle bundle store
  let token ← transactionOrderToken event.identity
  let claimed ← store.claim event.identity event.pipeline event.targetTable
  if claimed.1 then
    return (claimed.2, ⟨event.identity.eventId, true, token, false⟩)
  else
    let rows ← insertRow (closeCurrent claimed.2.rows token) (event.marker bundle token)
    return ({ claimed.2 with rows }, ⟨event.identity.eventId, false, token, false⟩)

/-! ### Calls -/

/-- One call on the history of a relation, with the bundle it is made with. -/
inductive Call (C V : Type)
  | event (bundle : Bundle C V) (change : Event C V)
  | truncate (bundle : Bundle C V) (change : TableEvent)

/-- The state after a call that returns. -/
def Call.apply (store : Store C V) : Call C V → Except Raised (Store C V)
  | .event bundle change => (applyEvent bundle change store).map Prod.fst
  | .truncate bundle change => (applyTruncate bundle change store).map Prod.fst

/-- The state after a sequence of calls, none of which raises. -/
def applyCalls (store : Store C V) (calls : List (Call C V)) : Except Raised (Store C V) :=
  calls.foldlM Call.apply store

end CdcFlight.Scd2
