import CdcFlight.Fold.Collect
import CdcFlight.Lib.Keyed

/-!
# Source histories and their events

The purpose of the fold, stated on its own: a source table is a multiset of rows, and a source
transaction is a run of physical operations on it. Between two transactions no key is worn twice;
inside a transaction a deferred constraint lets several rows wear one key.

The second half says which records render an operation. An image shows a column when it carries the
column's value, and hides it when it carries the unchanged-TOAST placeholder or nothing.

## Main definitions

* `CdcFlight.Layout`: the columns, key and catalog of a keyed source table.
* `CdcFlight.SourceEvent`, `CdcFlight.Layout.Step`: physical operations.
* `CdcFlight.Layout.Transaction`, `CdcFlight.Layout.StrictTransaction`: with the key constraint
  checked at the end, and after every operation.
* `CdcFlight.Layout.Renders`, `CdcFlight.Layout.FullBefore`: the records of an operation.
-/

namespace CdcFlight

open Lib

/-- A keyed source table: its columns, its key, and the catalog descriptor of every column. -/
structure Layout (C : Type) where
  columns : List C
  keyColumns : List C
  catalog : C → Descriptor
  keyColumns_ne_nil : keyColumns ≠ []
  keyColumns_subset : ∀ c ∈ keyColumns, c ∈ columns

/-- One physical operation on a source table. -/
inductive SourceEvent (C V : Type)
  | insert (r : Row C V)
  | update (old new : Row C V)
  | delete (old : Row C V)
  | truncate

namespace Layout

variable {C V : Type} (layout : Layout C)

/-- The key of a row. -/
def key (r : Row C V) : List (Option V) := layout.keyColumns.map r

/-- The fold key of a row. -/
def token (r : Row C V) : Token V :=
  layout.keyColumns.map fun c => ((layout.catalog c).fingerprint, r c)

/-- A row holds nothing outside the table's columns. -/
def Fits (r : Row C V) : Prop := ∀ c, c ∉ layout.columns → r c = none

/-- No two rows wear one key. -/
def KeysDistinct (S : Multiset (Row C V)) : Prop := (S.map layout.key).Nodup

/-- One physical operation: an update keeps the key and replaces one row, a delete takes one row
away. -/
inductive Step : Multiset (Row C V) → SourceEvent C V → Multiset (Row C V) → Prop
  | insert {S : Multiset (Row C V)} {r : Row C V} (h : layout.Fits r) : Step S (.insert r) (r ::ₘ S)
  | update {S : Multiset (Row C V)} {old new : Row C V} (h : layout.Fits new)
      (hkey : layout.key new = layout.key old) :
      Step (old ::ₘ S) (.update old new) (new ::ₘ S)
  | delete {S : Multiset (Row C V)} {old : Row C V} : Step (old ::ₘ S) (.delete old) S
  | truncate {S : Multiset (Row C V)} : Step S .truncate 0

/-- A source transaction: its operations, with the key constraint checked at its end. In between two
rows may wear one key, as under a deferred constraint. -/
def Transaction (S : Multiset (Row C V)) (events : List (SourceEvent C V))
    (S' : Multiset (Row C V)) : Prop :=
  Trace layout.Step S events S' ∧ layout.KeysDistinct S'

/-- One physical operation under a constraint that is not deferred: no two rows wear one key after
it. A run of such steps is a history of a table whose key constraint PostgreSQL checks at every
statement, which is the default; a deferred constraint allows more runs. -/
def StrictStep (S : Multiset (Row C V)) (event : SourceEvent C V) (S' : Multiset (Row C V)) :
    Prop :=
  layout.Step S event S' ∧ layout.KeysDistinct S'

/-! ### Images -/

variable [DecidableEq C]

/-- An image shows a column: it carries the value, which is no placeholder, and a typed sidecar
agrees. -/
def Shows [ColumnValue V] (image : Option (Image C V)) (typed : Option (TypedImage C V)) (c : C)
    (x : Option V) : Prop :=
  (image.getD ∅).get? c = some x ∧
    isStructuralMarker x (some (layout.catalog c)) = false ∧
    ∀ f, (typed.getD ∅).get? c = some f → f.state = .of x

/-- An image hides a column: the typed sidecar says so, or the image does not name it, or it
carries the placeholder of a column whose type excludes it. -/
def Hides [ColumnValue V] (image : Option (Image C V)) (descriptors : Dict C Descriptor)
    (typed : Option (TypedImage C V)) (c : C) : Prop :=
  (∃ f, (typed.getD ∅).get? c = some f ∧ f.state.isHidden) ∨
  ((image.getD ∅).get? c = none ∧ (typed.getD ∅).get? c = none) ∨
  ∃ v, (image.getD ∅).get? c = some (some v) ∧ descriptors.get? c = some (layout.catalog c) ∧
    isStructuralMarker (some v) (some (layout.catalog c)) ∧
    ∀ f, (typed.getD ∅).get? c = some f → f.state = .value v

/-- An image speaks of the table's columns only, under the catalog's descriptors. -/
structure WellTyped (image : Option (Image C V)) (descriptors : Dict C Descriptor)
    (typed : Option (TypedImage C V)) : Prop where
  image_columns : ∀ c, c ∉ layout.columns → (image.getD ∅).get? c = none
  typed_columns : ∀ c, c ∉ layout.columns → (typed.getD ∅).get? c = none
  descriptors_eq : ∀ c d, descriptors.get? c = some d → d = layout.catalog c
  typed_eq : ∀ c f d, (typed.getD ∅).get? c = some f → f.descriptor = some d →
    d = layout.catalog c

variable [ColumnValue V]

/-- An image shows every column of a row. -/
def ShowsAll (image : Option (Image C V)) (typed : Option (TypedImage C V)) (r : Row C V) : Prop :=
  ∀ c ∈ layout.columns, layout.Shows image typed c (r c)

/-- A before-image: each column of the old row is shown or hidden, a key column shown or left
out. -/
def ShowsSome (image : Option (Image C V)) (descriptors : Dict C Descriptor)
    (typed : Option (TypedImage C V)) (old : Row C V) : Prop :=
  (∀ c ∈ layout.columns, layout.Shows image typed c (old c) ∨
    layout.Hides image descriptors typed c) ∧
  ∀ c ∈ layout.keyColumns, layout.Shows image typed c (old c) ∨ (image.getD ∅).get? c = none

/-- An after-image: a hidden column is one the update did not change. -/
def ShowsChange (image : Option (Image C V)) (descriptors : Dict C Descriptor)
    (typed : Option (TypedImage C V)) (old new : Row C V) : Prop :=
  ∀ c ∈ layout.columns, layout.Shows image typed c (new c) ∨
    (layout.Hides image descriptors typed c ∧ new c = old c)

/-! ### Records -/

/-- What every row event of the table has, for a row that wears the event's key. -/
structure RowEvent (op : Op) (r : Row C V) (e : PendingRecord C V) : Prop where
  kind : e.kind = .data
  op : e.op = some op
  incremental : e.incremental = false
  deleteMode : e.deleteMode ≠ some .soft
  key : ∃ k, e.key = some k ∧ k.keys = layout.keyColumns ∧
    ∀ c ∈ layout.keyColumns, k.get? c = some (r c)
  before : layout.WellTyped e.before e.beforeDescriptors e.typedBefore
  after : layout.WellTyped e.after e.afterDescriptors e.typedAfter
  keyDescriptors : ∀ c d, e.keyDescriptors.get? c = some d → d = layout.catalog c

/-- The records that render a physical operation: an insert shows the whole new row, an update what
it changed and as much of the old row as the replica identity has, and a delete at least the old
key. No record asks for a soft delete. -/
inductive Renders : SourceEvent C V → PendingRecord C V → Prop
  | insert {r : Row C V} {e : PendingRecord C V} (h : layout.RowEvent .create r e)
      (hafter : layout.ShowsAll e.after e.typedAfter r) : Renders (.insert r) e
  | update {old new : Row C V} {e : PendingRecord C V} (h : layout.RowEvent .update new e)
      (hbefore : layout.ShowsSome e.before e.beforeDescriptors e.typedBefore old)
      (hafter : layout.ShowsChange e.after e.afterDescriptors e.typedAfter old new) :
      Renders (.update old new) e
  | delete {old : Row C V} {e : PendingRecord C V} (h : layout.RowEvent .delete old e)
      (hbefore : layout.ShowsSome e.before e.beforeDescriptors e.typedBefore old)
      (hkey : ∀ c ∈ layout.keyColumns, layout.Shows e.before e.typedBefore c (old c)) :
      Renders (.delete old) e
  | truncate {e : PendingRecord C V} (h : e.kind = .truncate)
      (hmode : e.deleteMode ≠ some .soft) : Renders .truncate e

/-- The record of an update or a delete carries the whole old row, as under `REPLICA IDENTITY FULL`.
Inserts and truncates have no old row, so nothing is asked of their records. -/
def FullBefore : SourceEvent C V → PendingRecord C V → Prop
  | .update old _, e => layout.ShowsAll e.before e.typedBefore old
  | .delete old, e => layout.ShowsAll e.before e.typedBefore old
  | _, _ => True

/-- Every column the event's image may bind has its catalog descriptor, and the catalog can be
delivered. -/
structure Described (e : PendingRecord C V) : Prop where
  key : ∀ c ∈ layout.keyColumns, e.keyDescriptors.get? c = some (layout.catalog c)
  image : ∀ c ∈ layout.columns,
    (if e.op = some .delete then e.beforeDescriptors else e.afterDescriptors).get? c =
      some (layout.catalog c)
  native : ∀ c ∈ layout.columns, ∀ forKey, (layout.catalog c).hasNativeType forKey

/-! ### Keys -/

omit [DecidableEq C] [ColumnValue V] in
theorem rawKey_token (r : Row C V) : rawKey (layout.token r) = layout.key r := by
  simp [rawKey, token, key]

omit [DecidableEq C] [ColumnValue V] in
theorem token_eq_iff {r s : Row C V} :
    layout.token r = layout.token s ↔ layout.key r = layout.key s := by
  simp [token, key, List.map_inj_left]

/-! ### Records of truncates -/

variable {layout} {event : SourceEvent C V} {e : PendingRecord C V}

/-- A record that is no truncate renders no truncate. -/
theorem Renders.ne_truncate (h : layout.Renders event e) (hkind : e.kind ≠ .truncate) :
    event ≠ .truncate := by
  rintro rfl
  cases h with
  | truncate ht _ => exact hkind ht

/-- A record that is a truncate renders a truncate. -/
theorem Renders.eq_truncate (h : layout.Renders event e) (hkind : e.kind = .truncate) :
    event = .truncate := by
  cases h with
  | insert he _ => exact absurd hkind (by simp [he.kind])
  | update he _ _ => exact absurd hkind (by simp [he.kind])
  | delete he _ _ => exact absurd hkind (by simp [he.kind])
  | truncate _ _ => rfl

end Layout

end CdcFlight
