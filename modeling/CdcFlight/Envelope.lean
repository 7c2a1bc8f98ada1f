import CdcFlight.Lib.Dict

/-!
# Decoded records

One decoded change event (`envelope.PendingRecord`) with the fields that the assembler, the spill
store, the planner and the table folds read. Records are taken as they leave the policy gate
(`policy.PolicyGate.sanitize`), where the column names of the three images are already normalized;
`C` is the type of normalized column names and `V` the type of non-null column values.

A raw image value is `none` for SQL NULL. Whether a value is the unchanged-TOAST placeholder
depends on the value and on the column's descriptor (`toast.is_structural_marker`), and whether it
is a JSON null document on the value alone; `ColumnValue` supplies the two tests on values.

## Main definitions

* `CdcFlight.Kind`, `CdcFlight.Op`, `CdcFlight.SnapshotMark`, `CdcFlight.DeleteMode`: the closed
  vocabularies of the envelope.
* `CdcFlight.Refusal`: a raised error.
* `CdcFlight.FieldState`, `CdcFlight.FieldValue`: the disposition of one column in a typed image.
* `CdcFlight.PendingRecord`: one decoded record.
-/

namespace CdcFlight

open Lib

/-- The tests on non-null column values that marker and variant-null recognition use. -/
class ColumnValue (V : Type) where
  /-- The value holds the NUL code point of the unchanged-TOAST placeholder. -/
  isMarker : V → Bool
  /-- The value is the JSON null document, as an object or as its text. -/
  isJsonNull : V → Bool

/-- `str.strip`. -/
def stripChars (l : List Char) : List Char :=
  ((l.dropWhile Char.isWhitespace).reverse.dropWhile Char.isWhitespace).reverse

/-- Text values: the placeholder is a text with a NUL, the JSON null document reads `null`. -/
instance : ColumnValue String where
  isMarker s := s.toList.contains '\x00'
  isJsonNull s := (stripChars s.toList).map Char.toLower = ['n', 'u', 'l', 'l']

/-- `KIND_*` of `envelope.py`. -/
inductive Kind
  | data
  | snapshot
  | truncate
  | txnBegin
  | txnEnd
  | heartbeat
  | message
  | schemaChange
  | unknown
  | snapshotBoundary
deriving DecidableEq, Repr

/-- The Debezium operation codes `c`, `r`, `u`, `d`, `t` and `m`. -/
inductive Op
  | create
  | read
  | update
  | delete
  | truncate
  | message
deriving DecidableEq, Repr

/-- The operation code itself. -/
def Op.code : Op → String
  | .create => "c"
  | .read => "r"
  | .update => "u"
  | .delete => "d"
  | .truncate => "t"
  | .message => "m"

/-- `source.snapshot` values that mean "this record came out of a snapshot". -/
inductive SnapshotMark
  | true
  | first
  | firstInDataCollection
  | lastInDataCollection
  | last
  | incremental
deriving DecidableEq, Repr

/-- `SNAPSHOT_TABLE_LAST`: the values that close a table's snapshot. -/
def SnapshotMark.closesTable : SnapshotMark → Bool
  | .lastInDataCollection => Bool.true
  | .last => Bool.true
  | _ => Bool.false

/-- The storage mode of deletes. -/
inductive DeleteMode
  | hard
  | soft
deriving DecidableEq, Repr

/-- A JSON value seen through Python's `int()`: an integer, or a `TypeError`/`ValueError`. -/
inductive PyInt
  | int (n : ℤ)
  | unparsable
deriving DecidableEq, Repr

/-- The facts of a `SourceTypeDescriptor` that the fold reads: its fingerprint, whether its kind
is `jsonb`, whether NUL is outside the type's domain (so that a NUL is a marker), and whether
`native_type` can deliver it, as a column and as a key column. -/
structure Descriptor where
  fingerprint : String
  jsonb : Bool := false
  structural : Bool := true
  deliverable : Bool := true
  keyDeliverable : Bool := true
deriving DecidableEq, Repr

/-- Whether `native_type(descriptor, for_key=...)` returns. -/
def Descriptor.hasNativeType (d : Descriptor) (forKey : Bool) : Bool :=
  if forKey then d.keyDeliverable else d.deliverable

/-- The exception classes of `errors.py` that the modelled code raises, with Python's own
`TypeError`. -/
inductive ErrorClass
  | ambiguousDelete
  | toastBaseMissing
  | admissionError
  | schemaEvolutionRefused
  | destinationIdentityCollision
  | destinationDataRejection
  | transactionAssemblyError
  | typeError
deriving DecidableEq, Repr

/-- A raised error: its class, the destination table it is about, and its text. Where the text
quotes the digest of an identity key, the digest is left out. -/
structure Refusal where
  errorClass : ErrorClass
  target : String := ""
  sourceSchema : Option String := none
  sourceTable : Option String := none
  message : String := ""
deriving DecidableEq, Repr

/-- `FieldState`, with the value it carries. -/
inductive FieldState (V : Type)
  | value (v : V)
  | explicitNull
  | unchangedToast
  | absent
deriving DecidableEq, Repr

namespace FieldState

variable {V : Type}

/-- `FieldValue.of`: a present value is a value, `None` an explicit null. -/
def of : Option V → FieldState V
  | none => .explicitNull
  | some v => .value v

/-- The states `VALUE` and `EXPLICIT_NULL`, whose content may be bound; the content. -/
def bound? : FieldState V → Option (Option V)
  | .value v => some (some v)
  | .explicitNull => some none
  | .unchangedToast => none
  | .absent => none

@[simp] theorem bound?_of (x : Option V) : (of x).bound? = some x := by
  cases x <;> rfl

end FieldState

/-- `FieldValue`: a disposition and the descriptor it was decoded under. -/
structure FieldValue (V : Type) where
  state : FieldState V
  descriptor : Option Descriptor := none
deriving DecidableEq, Repr

/-- A raw `key`, `before` or `after` mapping; `none` is SQL NULL. -/
abbrev Image (C V : Type) := Dict C (Option V)

/-- `TypedImage`: the field-presence map beside a raw image. -/
abbrev TypedImage (C V : Type) := Dict C (FieldValue V)

/-- A value-free admission decision made while sealing a record, with the relation it names. -/
structure AdmissionRefusal where
  sourceSchema : Option String := none
  sourceTable : Option String := none
deriving DecidableEq, Repr

/-- One decoded record. -/
structure PendingRecord (C V : Type) where
  /-- The acknowledgement handle; `none` once released. -/
  raw : Option ℕ := none
  kind : Kind
  topic : String := ""
  nbytes : ℕ := 0
  op : Option Op := none
  messagePrefix : Option String := none
  messageContent : Option (List UInt8) := none
  messageTransactional : Option Bool := none
  schema : Option String := none
  table : Option String := none
  lsn : Option ℕ := none
  txnId : Option String := none
  totalOrder : Option PyInt := none
  sourceClusterId : Option String := none
  sourceTimeline : Option ℤ := none
  relationGeneration : Option String := none
  /-- The commit position of the transaction, distinct from the event's own `lsn`. -/
  commitLsn : Option ℕ := none
  policyEpoch : ℕ := 0
  policyDigest : Option String := none
  sanitized : Bool := false
  policyAlerts : List String := []
  deleteMode : Option DeleteMode := none
  deletePolicyEpoch : ℕ := 1
  deletePolicyDigest : Option String := none
  sourceSequence : Option String := none
  sourceTsMs : Option ℕ := none
  eventTsMs : Option ℕ := none
  snapshot : Option SnapshotMark := none
  key : Option (Image C V) := none
  before : Option (Image C V) := none
  after : Option (Image C V) := none
  txnEventCount : Option PyInt := none
  txnDataCollections : Dict String ℤ := ∅
  /-- Whether the Connect offset of the record can be read. -/
  sourceOffset : Option ℕ := none
  snapshotOrdinal : Option ℕ := none
  keyDescriptors : Dict C Descriptor := ∅
  beforeDescriptors : Dict C Descriptor := ∅
  afterDescriptors : Dict C Descriptor := ∅
  typedKey : Option (TypedImage C V) := none
  typedBefore : Option (TypedImage C V) := none
  typedAfter : Option (TypedImage C V) := none
  admissionRefusal : Option AdmissionRefusal := none
  incremental : Bool := false
  snapshotIdentity : Option String := none
  ignoredSourceRecord : Bool := false
  incrementalRows : Option ℕ := none

/-- Python truthiness of an optional string. -/
def truthy (s : Option String) : Bool :=
  match s with
  | none => false
  | some s => s ≠ ""

/-- Python's `x or 0` for an optional position. -/
def orZero (n : Option ℕ) : ℕ := n.getD 0

namespace PendingRecord

variable {C V : Type}

/-- `PendingRecord.is_data`. -/
def isData (e : PendingRecord C V) : Bool :=
  e.kind = .data || e.kind = .snapshot || e.kind = .truncate

/-- `PendingRecord.is_delivery_data`. -/
def isDeliveryData (e : PendingRecord C V) : Bool :=
  e.isData && !e.ignoredSourceRecord

/-- `PendingRecord.qualified_table`. -/
def qualifiedTable (e : PendingRecord C V) : Option String :=
  if truthy e.schema && truthy e.table then
    some (e.schema.getD "" ++ "." ++ e.table.getD "")
  else e.table

end PendingRecord

end CdcFlight
