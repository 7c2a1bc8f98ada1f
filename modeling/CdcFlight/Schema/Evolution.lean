import CdcFlight.Destination.Table
import CdcFlight.Lib.Run

/-!
# Schema evolution

`schema_evolution.diff_columns` and `apply_column_changes`, with the destination statements of
`schema_registry.rename_column`, `drop_column` and of `ensure_typed` for one column. A catalog
diff is by attribute number; the script that applies it works on column names, one statement after
the other, inside the caller's transaction.

`naming.normalize` is a parameter. Physical types are not part of the table: whether a type change
can be converted, and whether an existing column can take a descriptor, are parameters too, and a
conversion keeps the stored values.

## Main definitions

* `CdcFlight.SourceColumn`, `CdcFlight.ColumnChange`, `CdcFlight.diffColumns`: the diff.
* `CdcFlight.Registered`: a destination table with its presence journal.
* `CdcFlight.Registered.renameColumn`, `CdcFlight.Registered.dropColumn`,
  `CdcFlight.Registered.addColumn`: the statements.
* `CdcFlight.applyColumnChanges`: the script.
-/

namespace CdcFlight

open Lib

/-! ### The diff -/

/-- `SourceColumn`; the identity of the type is the fingerprint of its descriptor. -/
structure SourceColumn where
  attnum : ℕ
  name : String
  descriptor : Descriptor
deriving DecidableEq, Repr

/-- `COLUMN_ADDED`, `COLUMN_DROPPED`, `COLUMN_RENAMED` and `COLUMN_TYPE_CHANGED`. -/
inductive ChangeKind
  | added
  | dropped
  | renamed
  | typeChanged
deriving DecidableEq, Repr

/-- `ColumnChange`. -/
structure ColumnChange where
  kind : ChangeKind
  attnum : ℕ
  oldName : Option String := none
  newName : Option String := none
  typeChanged : Bool := false
  oldDescriptor : Option Descriptor := none
  newDescriptor : Option Descriptor := none
deriving DecidableEq, Repr

/-- `{column.attnum: column for column in columns}.get(attnum)`: the last one counts. -/
def columnAt (columns : List SourceColumn) (attnum : ℕ) : Option SourceColumn :=
  columns.reverse.find? (·.attnum = attnum)

/-- The change of one attribute number, if any. -/
def changeOf (attnum : ℕ) : Option SourceColumn → Option SourceColumn → Option ColumnChange
  | none, none => none
  | none, some current => some
      { kind := .added, attnum, newName := current.name, newDescriptor := current.descriptor }
  | some previous, none => some
      { kind := .dropped, attnum, oldName := previous.name, oldDescriptor := previous.descriptor }
  | some previous, some current =>
    if previous.name ≠ current.name then some
      { kind := .renamed, attnum, oldName := previous.name, newName := current.name
        typeChanged := previous.descriptor.fingerprint ≠ current.descriptor.fingerprint
        oldDescriptor := previous.descriptor, newDescriptor := current.descriptor }
    else if previous.descriptor.fingerprint ≠ current.descriptor.fingerprint then some
      { kind := .typeChanged, attnum, oldName := previous.name, newName := current.name
        oldDescriptor := previous.descriptor, newDescriptor := current.descriptor }
    else none

/-- `sorted(old.keys() | new.keys())`. -/
def attnums (before after : List SourceColumn) : List ℕ :=
  ((before.map (·.attnum) ++ after.map (·.attnum)).dedup).insertionSort (· ≤ ·)

/-- `diff_columns`. -/
def diffColumns (before after : List SourceColumn) : List ColumnChange :=
  (attnums before after).filterMap fun attnum =>
    changeOf attnum (columnAt before attnum) (columnAt after attnum)

/-! ### Statements -/

/-- A destination table with the facts schema evolution reads beside it. -/
structure Registered (C V : Type) where
  table : Table C V
  /-- `CDCF_EVENT_ID in table.columns`. -/
  hasEventId : Bool := true
  /-- The `column_presence` rows of the table: event id and column. -/
  presence : List (String × C) := []

/-- A schema change that is refused. -/
def schemaRefused (target message : String) : Refusal :=
  { errorClass := .schemaEvolutionRefused, target, message }

namespace Registered

variable {C V : Type} [DecidableEq C] [DecidableEq V] [ToString C]

/-- `new if c == old else c`, in the key columns. -/
def renameKeys (s : Registered C V) (old new : C) : Registered C V :=
  { s with table := { s.table with
      keyColumns := s.table.keyColumns.map fun c => if c = old then new else c } }

/-- `ALTER TABLE ... RENAME COLUMN`. -/
def alterRename (s : Registered C V) (old new : C) : Registered C V :=
  { s with table := { s.table with
      columns := s.table.columns.map fun c => if c = old then new else c
      rows := s.table.rows.map fun r => { r with
        values := fun c =>
          if c = new then r.values old else if c = old then none else r.values c } } }

/-- `ALTER TABLE ... DROP COLUMN`. -/
def alterDrop (s : Registered C V) (column : C) : Registered C V :=
  { s with table := { s.table with
      columns := s.table.columns.filter (· ≠ column)
      rows := s.table.rows.map fun r => { r with
        values := fun c => if c = column then none else r.values c } } }

/-- `ALTER TABLE ... ADD COLUMN`. -/
def alterAdd (s : Registered C V) (column : C) : Registered C V :=
  { s with table := { s.table with
      columns := s.table.columns ++ [column]
      rows := s.table.rows.map fun r => { r with
        values := fun c => if c = column then none else r.values c } } }

/-- The presence journal says that the row's last event carried the column. -/
def isPresent (s : Registered C V) (column : C) (r : DestRow C V) : Bool :=
  match r.rowMeta.eventId with
  | none => false
  | some eventId => (eventId, column) ∈ s.presence

/-- The value of the new column after the merge: the journal decides, and without event ids
`COALESCE`. -/
def mergedValue (s : Registered C V) (old new : C) (r : DestRow C V) : Option V :=
  if s.hasEventId then
    if s.isPresent new r then r.values new else r.values old
  else (r.values new).or (r.values old)

/-- The `UPDATE` of a late rename. -/
def mergeColumns (s : Registered C V) (old new : C) : Registered C V :=
  { s with table := { s.table with
      rows := s.table.rows.map fun r => { r with
        values := fun c => if c = new then s.mergedValue old new r else r.values c } } }

/-- The journal without the merged column. -/
def clearPresence (s : Registered C V) (column : C) : Registered C V :=
  if s.hasEventId then { s with presence := s.presence.filter (·.2 ≠ column) } else s

/-- `rename_column`: a physical rename, or the merge of a late one. A renamed primary key is
rebuilt, which refuses a key worn twice. -/
def renameColumn (s : Registered C V) (old new : C) : Except Refusal (Registered C V) :=
  if old = new ∨ ¬ s.table.present then .ok s
  else if old ∈ s.table.columns ∧ new ∉ s.table.columns then
    .ok ((s.alterRename old new).renameKeys old new)
  else if old ∈ s.table.columns then
    let merged := ((((s.mergeColumns old new).alterDrop old).clearPresence new).renameKeys old new)
    if old ∈ s.table.keyColumns ∧ s.table.constrained ∧ ¬ merged.table.IdentityUnique then
      .error { errorClass := .destinationDataRejection, target := s.table.name }
    else .ok merged
  else .ok (s.renameKeys old new)

/-- `drop_column`. -/
def dropColumn (s : Registered C V) (column : C) : Except Refusal (Registered C V) :=
  if ¬ s.table.present ∨ column ∉ s.table.columns then .ok s
  else if column ∈ s.table.keyColumns then
    .error (schemaRefused s.table.name ("cannot drop primary-key column " ++ s.table.name ++ "." ++
      toString column ++ ": the source did not provide a replacement identity, so the " ++
      "destination refuses to continue without a lossless row key"))
  else .ok (s.alterDrop column)

/-- What the typed code decides: whether `convert_column_to_union` returns, and whether a column
that exists can take a descriptor. -/
structure TypeRules (C : Type) where
  converts : C → Descriptor → Descriptor → Bool
  accepts : C → Descriptor → Bool

/-- `ensure_typed` for one column of an existing table. -/
def addColumn (types : TypeRules C) (s : Registered C V) (column : C) (descriptor : Descriptor) :
    Except Refusal (Registered C V) :=
  if !descriptor.hasNativeType (column ∈ s.table.keyColumns) then
    .error (schemaRefused s.table.name ("cannot materialize " ++ s.table.name ++ "." ++
      toString column ++
      ": the source descriptor is not deliverable through the native destination"))
  else if column ∈ s.table.columns then
    if types.accepts column descriptor then .ok s
    else .error (schemaRefused s.table.name ("cannot reinterpret existing destination " ++
      s.table.name ++ "." ++ toString column))
  else .ok (s.alterAdd column)

/-- `convert_column_to_union`, on the values. -/
def convertColumn (types : TypeRules C) (s : Registered C V) (column : C)
    (oldDescriptor newDescriptor : Option Descriptor) : Except Refusal (Registered C V) :=
  match oldDescriptor, newDescriptor with
  | some d, some d' =>
    if types.converts column d d' then .ok s
    else .error (schemaRefused s.table.name
      ("cannot change source column " ++ s.table.name ++ "." ++
      toString column ++ ": the source descriptor is not deliverable"))
  | _, _ => .error (schemaRefused s.table.name ("cannot apply rename/type change to " ++
      s.table.name ++
      ": source descriptor is missing, so the safe widening lattice cannot prove " ++
      "a native UNION member"))

end Registered

/-! ### The script -/

section Script

variable {C V : Type} [DecidableEq C] [DecidableEq V] [ToString C] (normalize : String → C)

/-- `ColumnChange.destination_old_name`. -/
def ColumnChange.destinationOldName (change : ColumnChange) : Option C :=
  change.oldName.map normalize

/-- `ColumnChange.destination_new_name`. -/
def ColumnChange.destinationNewName (change : ColumnChange) : Option C :=
  change.newName.map normalize

/-- The renames of a diff. -/
def renamesOf (changes : List ColumnChange) : List ColumnChange :=
  changes.filter (·.kind = .renamed)

/-- The drops of columns whose name a rename takes. -/
def earlyDrops (changes : List ColumnChange) : List ColumnChange :=
  changes.filter fun change => change.kind = .dropped ∧
    change.destinationOldName normalize ∈
      (renamesOf changes).map (ColumnChange.destinationNewName normalize)

/-- `late_drops`: every change that is not an early drop. -/
def lateChanges (changes : List ColumnChange) : List ColumnChange :=
  changes.filter (· ∉ earlyDrops normalize changes)

/-- The body of the first loop. -/
def applyMove (types : Registered.TypeRules C) (s : Registered C V) (change : ColumnChange) :
    Except Refusal (Registered C V) :=
  match change.kind, change.destinationOldName normalize, change.destinationNewName normalize with
  | .renamed, some old, some new => do
    let s ← s.renameColumn old new
    if change.typeChanged then s.convertColumn types new change.oldDescriptor change.newDescriptor
    else return s
  | .dropped, some old, _ => s.dropColumn old
  | _, _, _ => .ok s

/-- The body of the second loop. -/
def applyShape (types : Registered.TypeRules C) (s : Registered C V) (change : ColumnChange) :
    Except Refusal (Registered C V) :=
  match change.kind, change.destinationNewName normalize, change.newDescriptor with
  | .added, some new, some descriptor => s.addColumn types new descriptor
  | .typeChanged, some new, _ => s.convertColumn types new change.oldDescriptor change.newDescriptor
  | _, _, _ => .ok s

/-- **`apply_column_changes`**: early drops, renames, everything that is not an early drop, and then
the additions and type changes. -/
def applyColumnChanges (types : Registered.TypeRules C) (s : Registered C V)
    (changes : List ColumnChange) : Except Refusal (Registered C V) := do
  let s ←
    (earlyDrops normalize changes ++ renamesOf changes ++ lateChanges normalize changes).foldlM
    (applyMove normalize types) s
  changes.foldlM (applyShape normalize types) s

end Script

end CdcFlight
