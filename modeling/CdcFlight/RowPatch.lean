import CdcFlight.Envelope

/-!
# Sparse row patches

`row_patch.RowPatch`: the disposition of every column one event speaks of. A patch binds the
columns it holds as a value or as an explicit null; an unchanged-TOAST placeholder or an absent
column binds nothing. Patches compose in source order.

Values are taken up to the destination's encoding, so that `encoded_values` and `bindable_values`
are one dictionary. The applier's own columns (`cdcf_*`) stand in `RowMeta` beside the source
columns, since they never are source columns.

## Main definitions

* `CdcFlight.RowPatch.fromImage`, `CdcFlight.RowPatch.fromEvent`: decoding.
* `CdcFlight.RowPatch.compose`: source-order composition.
* `CdcFlight.RowPatch.apply`: the row a patch makes of a base row.

## Main results

* `CdcFlight.RowPatch.apply_compose`: applying a composition is applying its parts in order.
* `CdcFlight.RowPatch.get?_fields_fromImage`: what a decoded image says of each column.
-/

namespace CdcFlight

open Lib

variable {C V : Type} [DecidableEq C]

/-- A source row: the value of every column, `none` for SQL NULL or for no such column. -/
abbrev Row (C V : Type) := C → Option V

/-- The applier's columns of a destination row. -/
structure RowMeta where
  commitId : Option ℕ := none
  eventId : Option String := none
  totalOrder : Option PyInt := none
  deleted : Option Bool := none
  deleteEventId : Option String := none
  deleteLsn : Option ℕ := none
deriving DecidableEq, Repr

/-- `toast.is_structural_marker`. -/
def isStructuralMarker [ColumnValue V] (value : Option V) (descriptor : Option Descriptor) :
    Bool :=
  match value, descriptor with
  | some v, some d => d.structural && ColumnValue.isMarker v
  | _, _ => false

/-- `toast.field_value`. -/
def fieldValue [ColumnValue V] (value : Option V) (descriptor : Option Descriptor) :
    FieldValue V :=
  if isStructuralMarker value descriptor then ⟨.unchangedToast, descriptor⟩
  else ⟨FieldState.of value, descriptor⟩

/-- `row_patch.RowPatch`. -/
structure RowPatch (C V : Type) where
  fields : Dict C (FieldValue V) := ∅
  absent : Finset C := ∅
  complete : Bool := false
  /-- The applier's columns, set by `from_event`. -/
  rowMeta : Option RowMeta := none
deriving DecidableEq

namespace RowPatch

/-- The field an image column decodes to: a typed disposition other than a value wins, a value is
classified again under the enriched descriptor. -/
def imageField [ColumnValue V] (descriptors : Dict C Descriptor) (typed : TypedImage C V) (c : C)
    (raw : Option V) : FieldValue V :=
  match typed.get? c with
  | some ⟨.explicitNull, d⟩ => ⟨.explicitNull, d⟩
  | some ⟨.unchangedToast, d⟩ => ⟨.unchangedToast, d⟩
  | some ⟨.absent, d⟩ => ⟨.absent, d⟩
  | _ => fieldValue raw (descriptors.get? c)

/-- `RowPatch.from_image`. -/
def fromImage [ColumnValue V] (image : Option (Image C V)) (descriptors : Dict C Descriptor)
    (typed : Option (TypedImage C V)) (complete : Bool) : RowPatch C V where
  fields :=
    (((image.getD ∅).filterMapValues fun c raw =>
        some (imageField descriptors (typed.getD ∅) c raw)).overlay (typed.getD ∅)
      fun present _ => present.isNone).overlay
        (descriptors.filterMapValues fun _ _ => some ⟨.absent, none⟩)
      fun present _ => present.isNone
  complete := complete

/-- `RowPatch.field`: the disposition of a column, absent when the patch does not name it. -/
def field (p : RowPatch C V) (c : C) : FieldValue V := (p.fields.get? c).getD ⟨.absent, none⟩

/-- `RowPatch.bindable_values`; also `encoded_values`, up to the destination's encoding. -/
def bindableValues (p : RowPatch C V) : Dict C (Option V) :=
  p.fields.filterMapValues fun _ f => f.state.bound?

/-- `RowPatch.has_marker`. -/
def hasMarker (p : RowPatch C V) : Bool :=
  p.fields.values.any fun f => match f.state with
    | .unchangedToast => true
    | _ => false

/-- `RowPatch.compose`: a later value or null replaces, a later marker or absence does not. -/
def compose (p later : RowPatch C V) : RowPatch C V where
  fields := p.fields.overlay later.fields fun present f => f.state.bound?.isSome || present.isNone
  absent := (p.absent ∪ later.absent) \ later.bindableValues.keys.toFinset
  complete := p.complete || later.complete
  rowMeta := later.rowMeta.or p.rowMeta

/-- `RowPatch.from_event`. -/
def fromEvent [ColumnValue V] (event : PendingRecord C V) (commitId : ℕ) (eventId : String)
    (snapshot : Bool) : RowPatch C V :=
  let image := if event.op = some .delete then event.before else event.after
  let descriptors :=
    if event.op = some .delete then event.beforeDescriptors else event.afterDescriptors
  let typed := if event.op = some .delete then event.typedBefore else event.typedAfter
  { fromImage image descriptors typed
      (event.op = some .create || event.op = some .read || snapshot) with
    rowMeta := some {
      commitId := some commitId
      eventId := some eventId
      totalOrder := if snapshot then none else event.totalOrder
      deleted := some false } }

/-- The row a patch makes of a base row: bound columns are assigned, the others kept. -/
def apply (p : RowPatch C V) (r : Row C V) : Row C V :=
  fun c => (p.bindableValues.get? c).getD (r c)

/-! ### What a patch binds -/

theorem get?_bindableValues (p : RowPatch C V) (c : C) :
    p.bindableValues.get? c = (p.fields.get? c).bind fun f => f.state.bound? := by
  simp [bindableValues]

theorem get?_bindableValues_compose (p q : RowPatch C V) (c : C) :
    (p.compose q).bindableValues.get? c =
      (q.bindableValues.get? c).or (p.bindableValues.get? c) := by
  simp only [get?_bindableValues, compose, Dict.get?_overlay]
  cases hq : q.fields.get? c with
  | none => simp
  | some f =>
    cases hf : f.state.bound? with
    | some x => simp [hf]
    | none =>
      cases hp : p.fields.get? c with
      | none => simp [hf]
      | some g => simp [hf]

/-- Applying a composition is applying the earlier patch and then the later one. -/
theorem apply_compose (p q : RowPatch C V) (r : Row C V) :
    (p.compose q).apply r = q.apply (p.apply r) := by
  funext c
  simp only [apply, get?_bindableValues_compose]
  cases q.bindableValues.get? c <;> simp

@[simp] theorem complete_compose (p q : RowPatch C V) :
    (p.compose q).complete = (p.complete || q.complete) := rfl

variable [ColumnValue V]

/-- What a decoded image says of a column. -/
theorem get?_fields_fromImage (image : Option (Image C V)) (descriptors : Dict C Descriptor)
    (typed : Option (TypedImage C V)) (complete : Bool) (c : C) :
    (fromImage image descriptors typed complete).fields.get? c =
      match (image.getD ∅).get? c with
      | some raw => some (imageField descriptors (typed.getD ∅) c raw)
      | none => ((typed.getD ∅).get? c).or
          ((descriptors.get? c).map fun _ => ⟨.absent, none⟩) := by
  simp only [fromImage, Dict.get?_overlay, Dict.get?_filterMapValues]
  cases hi : (image.getD ∅).get? c with
  | some raw =>
    cases ht : (typed.getD ∅).get? c <;> cases hd : descriptors.get? c <;> simp
  | none =>
    cases ht : (typed.getD ∅).get? c <;> cases hd : descriptors.get? c <;> simp

end RowPatch

end CdcFlight
