import CdcFlight.Fold.Collect
import CdcFlight.Destination.Table

/-!
# Writing a folded table

`table_writer.py`: the destination operations of a prepared fold. A keyed fold is read into keys to
delete, rows to insert, sparse updates and key moves (`_plan`), which run in that order after the
`DELETE FROM` of a truncate. A keyless fold runs its operations in source order, buffering inserts
until the next operation that has to see them.

The caller owns the surrounding transaction, so an error leaves the destination as it was.

## Main definitions

* `CdcFlight.Plan`, `CdcFlight.plan`: `_plan`.
* `CdcFlight.writeKeyed`, `CdcFlight.writeKeyless`, `CdcFlight.write`: the writer.
-/

namespace CdcFlight

open Lib

variable {C V : Type} [DecidableEq C] [DecidableEq V]

/-! ### The plan of a keyed fold -/

/-- A key move: the key of the row at the destination, its new key, and the patch. -/
structure RowMove (C V : Type) where
  sourceKey : Token V
  targetKey : Token V
  patch : RowPatch C V

/-- The destination operations of a keyed fold. -/
structure Plan (C V : Type) where
  deleteKeys : List (Token V) := []
  rows : List (NewRow C V) := []
  partialUpdates : List (Token V × RowPatch C V) := []
  moves : List (RowMove C V) := []
  softReplacements : List (Token V × RowPatch C V) := []

namespace Plan

/-- The operations of one key after those of the keys before it. -/
def append (a b : Plan C V) : Plan C V where
  deleteKeys := a.deleteKeys ++ b.deleteKeys
  rows := a.rows ++ b.rows
  partialUpdates := a.partialUpdates ++ b.partialUpdates
  moves := a.moves ++ b.moves
  softReplacements := a.softReplacements ++ b.softReplacements

end Plan

/-- The operations for the one concrete row left under a key. -/
def planEntry (item : TableWork C V) (key : Token V) : Entry C V → Plan C V
  | .start => {}
  | .patch p =>
    if item.softDeletes.contains key then { softReplacements := [(key, p)] }
    else if p.complete then { deleteKeys := [key], rows := [p.newRow] }
    else { partialUpdates := [(key, p)] }
  | .move source target p =>
    if item.softDeletes.contains key then { softReplacements := [(key, p)] }
    else { moves := [⟨source, target, p⟩] }

/-- The operations for one key of the fold. -/
def planKey (item : TableWork C V) (key : Token V) (entries : List (Entry C V)) :
    Except Refusal (Plan C V) :=
  match entries with
  | [] => pure (if item.softDeletes.contains key then {} else { deleteKeys := [key] })
  | _ => match entries.filter (· ≠ .start) with
    | [] => pure {}
    | [entry] => pure (planEntry item key entry)
    | _ => throw (item.refusal .ambiguousDelete
        ": opaque identity would be written twice by one commit group (ADR 0001 §18/A35)")

/-- The operations of every key, in fold order. -/
def planKeys (item : TableWork C V) : List (Token V × List (Entry C V)) →
    Except Refusal (Plan C V)
  | [] => pure {}
  | (key, entries) :: rest => do
    let head ← planKey item key entries
    let tail ← planKeys item rest
    return head.append tail

/-- `_plan`: a key that a move starts from is not deleted. -/
def plan (item : TableWork C V) : Except Refusal (Plan C V) := do
  let p ← planKeys item item.live.items
  return { p with
    deleteKeys := p.deleteKeys.filter fun key => key ∉ p.moves.map (·.sourceKey) }

/-! ### Keyed tables -/

/-- The sparse update of a patch. -/
def RowPatch.assignment (p : RowPatch C V) : Assignment C V :=
  ⟨p.bindableValues, .replace (p.rowMeta.getD {})⟩

/-- A move assigns the new key besides the columns of its patch. -/
def RowMove.assignment (keyColumns : List C) (move : RowMove C V) : Assignment C V where
  values := (keyColumns.zip (rawKey move.targetKey)).foldl (fun d p => d.set p.1 p.2)
    move.patch.bindableValues
  rowMeta := .replace (move.patch.rowMeta.getD {})

/-- A replacement of a soft-deleted row clears its delete marks. -/
def RowPatch.revival (p : RowPatch C V) : Assignment C V where
  values := p.bindableValues
  rowMeta := .replace { p.rowMeta.getD {} with
    deleted := some false, deleteEventId := none, deleteLsn := none }

/-- The sparse updates of a plan, in the order they are issued. -/
def Plan.updates (keyColumns : List C) (p : Plan C V) : List (SparseUpdate C V) :=
  p.partialUpdates.map (fun u => (rawKey u.1, u.2.assignment)) ++
    p.moves.map (fun m => (rawKey m.sourceKey, m.assignment keyColumns)) ++
    p.softReplacements.map (fun u => (rawKey u.1, u.2.revival))

/-- `_mark_keyed_soft_deletes`. -/
def markKeyedSoftDeletes (t : Table C V) (item : TableWork C V) : Table C V :=
  (t.updateRows item.keyColumns (item.softDeletes.items.map fun p =>
    (rawKey p.1, ⟨∅, .tombstone p.2.eventId p.2.sourceLsn⟩))).2

/-- What a write leaves: the table, and the rows removed by each truncate. -/
structure Written (C V : Type) where
  table : Table C V
  truncateRowsRemoved : List (Option ℕ)

/-- `_finish_truncate_audit`: the rows the destination removed count for the first truncate. -/
def finishTruncateAudit (item : TableWork C V) (rowsRemoved : Option ℕ) : List (Option ℕ) :=
  match item.truncateMarks with
  | [] => []
  | mark :: marks => rowsRemoved.map (mark + ·) :: marks.map some

/-- The deletes of a keyed write, with `rows_removed`. -/
def clearKeyed (t : Table C V) (item : TableWork C V) (fresh : Bool) (p : Plan C V) :
    Option ℕ × Table C V :=
  if item.truncated then
    if fresh then (some 0, t) else (some t.deleteAll.1, t.deleteAll.2)
  else if !item.snapshot && !fresh then
    (none, t.deleteKeys item.keyColumns (p.deleteKeys.map rawKey))
  else (none, t)

/-- The sparse updates of a keyed write: each has to find its row. -/
def updateKeyed (t : Table C V) (item : TableWork C V) (fresh : Bool) (p : Plan C V) :
    Except Refusal (Table C V) :=
  let updates := p.updates item.keyColumns
  if updates = [] then pure t
  else
    let result := if fresh then (0, t) else t.updateRows item.keyColumns updates
    if fresh ∨ result.1 ≠ updates.length then
      throw (item.refusal .toastBaseMissing (": sparse update matched " ++ toString result.1 ++
        " of " ++ toString updates.length ++ " destination base row(s)" ++ repairText))
    else pure result.2

/-- The keyed part of `_write_table`. -/
def writeKeyed (t : Table C V) (item : TableWork C V) (fresh : Bool) :
    Except Refusal (Written C V) := do
  let p ← plan item
  let cleared := clearKeyed t item fresh p
  let marked := if !item.snapshot && !fresh then markKeyedSoftDeletes cleared.2 item
    else cleared.2
  let updated ← updateKeyed marked item fresh p
  let inserted ← updated.insertRows p.rows
  inserted.assertIdentityIsUnique
  return ⟨inserted, finishTruncateAudit item cleared.1⟩

/-! ### Keyless tables -/

/-- The state of `_write_keyless_operations`. -/
structure KeylessWrite (C V : Type) where
  table : Table C V
  pending : List (NewRow C V) := []
  tableFresh : Bool
  rowsRemoved : Option ℕ := none

/-- `flush_inserts`. -/
def flushInserts (w : KeylessWrite C V) : Except Refusal (KeylessWrite C V) :=
  if w.pending = [] then pure w
  else do
    let t ← w.table.insertRows w.pending
    return { w with table := t, pending := [], tableFresh := false }

/-- `_mark_keyless_soft_delete`: every matching row is marked. -/
def markKeylessSoftDelete (t : Table C V) (operation : KeylessOperation C V) (image : Image C V) :
    ℕ × Table C V :=
  if image.items = [] then (0, t)
  else
    let mark : Assignment C V := ⟨∅, .tombstone operation.eventId operation.sourceLsn⟩
    ((t.rows.filter (Table.matchesRow image)).length,
      { t with
        rows := t.rows.map fun r => if Table.matchesRow image r then mark.assignTo r else r })

/-- Remove, or mark, the row a keyless delete or update names. -/
def removeKeyless (engine : LimitOne C V) (item : TableWork C V) (w : KeylessWrite C V)
    (operation : KeylessOperation C V) (op : Op) : Except Refusal (KeylessWrite C V) :=
  match operation.before with
  | none => throw (item.refusal .toastBaseMissing (": keyless " ++ op.code ++
      " has no complete before-image" ++ repairText))
  | some image =>
    let result := if op = .delete ∧ operation.deleteMode = .soft then
        markKeylessSoftDelete w.table operation image
      else w.table.deleteMatchingRow engine image
    if result.1 ≠ 1 then
      throw (item.refusal .toastBaseMissing (": keyless " ++ op.code ++ " before-image matched " ++
        toString result.1 ++ " destination row(s), expected exactly one" ++ repairText))
    else pure { w with table := result.2 }

/-- One operation of `_write_keyless_operations`. -/
def writeKeylessOperation (engine : LimitOne C V) (item : TableWork C V) (w : KeylessWrite C V)
    (operation : KeylessOperation C V) : Except Refusal (KeylessWrite C V) :=
  match operation.operation with
  | some .create => pure { w with pending := w.pending ++ operation.after.toList }
  | some .read => pure { w with pending := w.pending ++ operation.after.toList }
  | some .truncate => do
    let w ← flushInserts w
    if w.tableFresh then return { w with rowsRemoved := some 0, tableFresh := false }
    else return { w with
      table := w.table.deleteAll.2, rowsRemoved := some w.table.deleteAll.1, tableFresh := false }
  | some .delete => do
    let w ← flushInserts w
    removeKeyless engine item w operation .delete
  | some .update => do
    let w ← flushInserts w
    let w ← removeKeyless engine item w operation .update
    match operation.after with
    | none => throw (item.refusal .toastBaseMissing
        (": keyless UPDATE has no complete after-image" ++ repairText))
    | some row => flushInserts { w with pending := w.pending ++ [row] }
  | _ => do
    let _ ← flushInserts w
    throw (item.refusal .schemaEvolutionRefused ": unsupported keyless operation")

/-- The keyless part of `_write_table`. -/
def writeKeyless (engine : LimitOne C V) (t : Table C V) (item : TableWork C V) (fresh : Bool) :
    Except Refusal (Written C V) := do
  let w ← item.keylessOperations.foldlM (writeKeylessOperation engine item)
    { table := t, tableFresh := fresh }
  let w ← flushInserts w
  w.table.assertIdentityIsUnique
  return ⟨w.table, finishTruncateAudit item w.rowsRemoved⟩

/-! ### The writer -/

/-- `ensure_typed`: create the table under the identity of the fold, or add its new columns. -/
def ensureTyped (supportsPrimaryKey : Bool) (t : Table C V) (item : TableWork C V) : Table C V :=
  if t.present then
    { t with columns := t.columns ++ item.nativeColumns.keys.filter fun c => c ∉ t.columns }
  else
    { t with
      present := true
      columns := item.nativeColumns.keys
      keyColumns := item.keyColumns
      constrained := supportsPrimaryKey
      rows := [] }

/-- A soft-to-hard policy transition removes the committed tombstones. -/
def purgeTombstones (t : Table C V) (item : TableWork C V) (fresh : Bool) : Table C V :=
  if !item.snapshot && !fresh && item.previousDeleteMode = some .soft &&
      item.deleteMode = .hard then
    { t with rows := t.rows.filter fun r => r.rowMeta.deleted ≠ some true }
  else t

/-- `write`: apply one prepared table plan inside the caller's transaction. `created` says that
the table was created earlier in the same transaction. -/
def write (engine : LimitOne C V) (supportsPrimaryKey created : Bool) (t : Table C V)
    (item : TableWork C V) : Except Refusal (Written C V) :=
  if item.truncated ∧ item.live.items = [] ∧ !t.present then
    pure ⟨t, finishTruncateAudit item (some 0)⟩
  else if item.nativeColumns.keys = [] ∧ !(item.truncated && t.present) then
    throw (item.refusal .schemaEvolutionRefused (": catalog-authoritative descriptors are " ++
      "incomplete; the production typed path cannot create or write an untyped table"))
  else
    let fresh := created || !t.present
    let t := if item.nativeColumns.keys = [] then t else ensureTyped supportsPrimaryKey t item
    let t := purgeTombstones t item fresh
    if item.keyless then writeKeyless engine t item fresh else writeKeyed t item fresh

end CdcFlight
