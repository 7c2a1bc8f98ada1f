import CdcFlight.Fold.State

/-!
# The fold of a keyless table

`keyless_work.collect`: a table without a key has no key fold. Its operations are kept in source
order, each with the complete images a physical match needs, and every admitted event is listed
for the durable ledger of keyless events.

## Main definitions

* `CdcFlight.completeImage`: the complete source image of a patch, or a refusal.
* `CdcFlight.collectKeyless`: fold one event.
-/

namespace CdcFlight

open Lib

variable {C V : Type} [DecidableEq C] [ToString C]

/-- One column of `complete_image`. -/
def completeColumn (patch : RowPatch C V) (after : Bool) (column : C) :
    Fold C V (C × Option V) :=
  match (patch.field column).state.bound? with
  | some x => pure (column, x)
  | none => missingToastBase
      ((if after then "keyless UPDATE after-image" else "keyless DELETE before-image") ++
        " has no complete value for column " ++ toString column)

/-- `complete_image`: the value of every source column of the table, in the table's order. -/
def completeImage (patch : RowPatch C V) (after : Bool) : Fold C V (Image C V) := do
  let item ← get
  if item.nativeColumns.keys = [] then
    missingToastBase "keyless physical operation has no catalog-authoritative source columns"
  else
    let pairs ← item.nativeColumns.keys.mapM (completeColumn patch after)
    return pairs.foldl (fun image p => image.set p.1 p.2) ∅

/-- The row a patch inserts. -/
def RowPatch.newRow (patch : RowPatch C V) : NewRow C V :=
  ⟨patch.bindableValues, patch.rowMeta.getD {}⟩

/-- The operation an event contributes, apart from its images. -/
def keylessOperation (event : PendingRecord C V) (eventId : String) : KeylessOperation C V where
  eventId := eventId
  operation := event.op
  imageDigest := some (payloadDigest event)
  deleteMode := event.deleteMode.getD .hard
  sourceLsn := event.lsn
  txnId := event.txnId
  totalOrder := event.totalOrder

/-- The bookkeeping at the end of `keyless_work.collect`. -/
def TableWork.admitKeyless (item : TableWork C V) (event : PendingRecord C V) (eventId : String)
    (operation : KeylessOperation C V) : TableWork C V :=
  { item with
    keylessOperations := item.keylessOperations ++ [operation]
    deleteEffects := if event.op = some .delete then item.deleteEffects.set eventId operation
      else item.deleteEffects
    keylessEventIds := insert eventId item.keylessEventIds
    keylessLedger := if item.snapshot then item.keylessLedger
      else item.keylessLedger ++ [(eventId, event.op, payloadDigest event)] }

/-- `keyless_work.collect`. -/
def collectKeyless [ColumnValue V] (probe : Probe C V) (event : PendingRecord C V)
    (eventId : String) (patch : RowPatch C V) : Fold C V Unit := do
  let item ← get
  if !item.snapshot && probe.keylessEventApplied item eventId then
    pure ()
  else if eventId ∈ item.keylessEventIds then
    throw (item.refusal .ambiguousDelete (": keyless event identity " ++ eventId ++
      " appeared twice in one commit group; refusing to apply an un-attributable physical " ++
      "operation"))
  else if event.op = some .delete then
    let before ← completeImage patch false
    modify (·.admitKeyless event eventId
      { keylessOperation event eventId with before := some before })
  else if event.op = some .update then
    let before ← completeImage
      (RowPatch.fromImage event.before event.beforeDescriptors event.typedBefore true) false
    let _ ← completeImage patch true
    modify (·.admitKeyless event eventId
      { keylessOperation event eventId with before := some before, after := some patch.newRow })
  else if patch.hasMarker then
    missingToastBase "keyless sparse change has no safe base"
  else
    modify (·.admitKeyless event eventId
      { keylessOperation event eventId with after := some patch.newRow })

end CdcFlight
