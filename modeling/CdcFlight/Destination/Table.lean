import CdcFlight.Fold.State
import CdcFlight.Lib.Keyed

/-!
# Destination tables

A destination table and the statements the applier runs on it (`typed_materialization.py`,
`schema_ddl.assert_identity_is_unique`). Rows have no order that any statement observes; where a
statement picks one of several rows (`LIMIT 1`), the choice is the engine's.

Keys arrive as the connector writes them, and the destination compares them in a form of its own:
by `_identity_value` where the identity is kept in `cdcf_internal_id`, else with
`IS NOT DISTINCT FROM` at the types of the key columns. Several texts can have one form, as the
numbers `1.0` and `1.00` have. Outside the key a value stands for what the engine stores, so that
`IS NOT DISTINCT FROM` is equality on `Option V`.

## Main definitions

* `CdcFlight.Table`: a destination table as the schema registry and the database hold it.
* `CdcFlight.Table.deleteKeys`, `CdcFlight.Table.updateRows`, `CdcFlight.Table.insertRows`,
  `CdcFlight.Table.deleteMatchingRow`, `CdcFlight.Table.assertIdentityIsUnique`: the statements.
* `CdcFlight.Table.probe`: the planner's answers about the rows the table held before the group.

## Main results

* `CdcFlight.Table.updateRows_eq`: sparse updates with distinct keys, in whatever statements they
  are batched, are one assignment to each addressed row.
* `CdcFlight.Table.updateRows_byText`: the same for a table that compares keys as they are written.
-/

namespace CdcFlight

open Lib

/-- A row of a destination table. -/
structure DestRow (C V : Type) where
  values : Row C V
  rowMeta : RowMeta

/-- A destination table. -/
structure Table (C V : Type) where
  name : String
  present : Bool := true
  /-- The source columns the registry knows. -/
  columns : List C := []
  /-- The source key columns; empty when the identity is `cdcf_event_id`. -/
  keyColumns : List C := []
  /-- The database itself enforces the identity with a primary key. -/
  constrained : Bool := true
  internalIdentity : Bool := false
  /-- The form in which the destination compares keys. -/
  canonicalKey : List (Option V) → List (Option V) := id
  rows : List (DestRow C V) := []

/-- The engine's choice of one row, `LIMIT 1`. Nothing is assumed of the choice but that it is one
of the rows, and that there is one where there are rows. -/
structure LimitOne (C V : Type) where
  pick : List (DestRow C V) → Option (DestRow C V)
  pick_mem : ∀ {l : List (DestRow C V)} {r : DestRow C V}, pick l = some r → r ∈ l
  pick_isSome : ∀ {l : List (DestRow C V)}, l ≠ [] → (pick l).isSome

/-- The applier columns a statement assigns: all of them, or the delete marks. -/
inductive MetaAssignment
  | replace (m : RowMeta)
  | tombstone (eventId : String) (lsn : Option ℕ)
deriving DecidableEq, Repr

/-- The columns one sparse update assigns. -/
structure Assignment (C V : Type) where
  values : Dict C (Option V)
  rowMeta : MetaAssignment

/-- A sparse update: the key of the row it addresses and the assignments. -/
abbrev SparseUpdate (C V : Type) := List (Option V) × Assignment C V

/-- The two sets of applier columns a statement can assign. -/
inductive MetaShape
  | replace
  | tombstone
deriving DecidableEq, Repr

variable {C V : Type} [DecidableEq C]

/-- The applier columns after an assignment. -/
def MetaAssignment.assignTo (m : RowMeta) : MetaAssignment → RowMeta
  | .replace m' => m'
  | .tombstone eventId lsn =>
    { m with deleted := some true, deleteEventId := some eventId, deleteLsn := lsn }

/-- Which applier columns are assigned. -/
def MetaAssignment.shape : MetaAssignment → MetaShape
  | .replace _ => .replace
  | .tombstone _ _ => .tombstone

/-- How many applier columns are assigned. -/
def MetaShape.size : MetaShape → ℕ
  | .replace => 12
  | .tombstone => 3

/-- A row after an assignment. -/
def Assignment.assignTo (r : DestRow C V) (a : Assignment C V) : DestRow C V where
  values c := (a.values.get? c).getD (r.values c)
  rowMeta := a.rowMeta.assignTo r.rowMeta

/-- The set of assigned columns, under which updates share a statement. The applier columns make
it non-empty. -/
def Assignment.shape (a : Assignment C V) : Finset C × MetaShape :=
  (a.values.keys.toFinset, a.rowMeta.shape)

/-- The key of a row. -/
def keyOf (keyColumns : List C) (r : DestRow C V) : List (Option V) := keyColumns.map r.values

omit [DecidableEq C] in
@[simp] theorem keyOf_mk (keyColumns : List C) (values : Row C V) (m : RowMeta) :
    keyOf keyColumns ⟨values, m⟩ = keyColumns.map values := rfl

/-- The row a `NewRow` inserts: a column without a value is NULL. -/
def NewRow.toRow (r : NewRow C V) : DestRow C V := ⟨fun c => (r.values.get? c).join, r.rowMeta⟩

/-- `MAX_ROWS_PER_STATEMENT`. -/
def maxRowsPerStatement : ℕ := 5000

/-- `MAX_PARAMS_PER_STATEMENT`. -/
def maxParamsPerStatement : ℕ := 40000

/-- The parameters one sparse update binds. -/
def SparseUpdate.params (u : SparseUpdate C V) : ℕ :=
  u.1.length + u.2.values.items.length + u.2.rowMeta.shape.size

/-- The statements of one shape: `pending` is flushed when the next update would pass a limit. -/
def statements (pending : List (SparseUpdate C V)) :
    List (SparseUpdate C V) → List (List (SparseUpdate C V))
  | [] => if pending = [] then [] else [pending]
  | u :: us =>
    if pending ≠ [] ∧ (maxRowsPerStatement ≤ pending.length ∨
        maxParamsPerStatement < (pending.map SparseUpdate.params).sum + u.params) then
      pending :: statements [u] us
    else statements (pending ++ [u]) us

namespace Table

variable (t : Table C V)

/-- `_delete_all`, with the number of rows removed. -/
def deleteAll : ℕ × Table C V := (t.rows.length, { t with rows := [] })

/-- The key of a row, as the destination compares it. -/
def keyAt (keyColumns : List C) (r : DestRow C V) : List (Option V) :=
  t.canonicalKey (keyOf keyColumns r)

/-- A sparse update, addressed as the destination compares keys. -/
def address (u : SparseUpdate C V) : SparseUpdate C V := (t.canonicalKey u.1, u.2)

variable [DecidableEq V]

/-- The rows that wear none of the keys, as they are written. -/
def rowsWithout (keyColumns : List C) (keys : List (List (Option V))) (rows : List (DestRow C V)) :
    List (DestRow C V) :=
  rows.filter fun r => keyOf keyColumns r ∉ keys

/-- `delete_keys`. -/
def deleteKeys (keyColumns : List C) (keys : List (List (Option V))) : Table C V :=
  { t with rows := t.rows.filter fun r => t.keyAt keyColumns r ∉ keys.map t.canonicalKey }

/-- The statements `update_rows` runs: one for each update under an internal identity, else one
for each shape, split at the statement limits. -/
def updateStatements (updates : List (SparseUpdate C V)) : List (List (SparseUpdate C V)) :=
  if t.internalIdentity then updates.map fun u => [u]
  else (Dict.groupBy (fun u => u.2.shape) updates).values.flatMap (statements [])

/-- `update_rows`, with the number of rows the statements returned. -/
def updateRows (keyColumns : List C) (updates : List (SparseUpdate C V)) : ℕ × Table C V :=
  let result := ((t.updateStatements updates).map (·.map t.address)).foldl
    (pass (t.keyAt keyColumns) Assignment.assignTo) (t.rows, 0)
  (result.2, { t with rows := result.1 })

/-- The identity of a row: its key, or its event id in a keyless table. -/
def identityOf (r : DestRow C V) : List (Option V) ⊕ Option String :=
  if t.keyColumns = [] then .inr r.rowMeta.eventId else .inl (t.keyAt t.keyColumns r)

/-- No two rows share an identity. -/
def IdentityUnique : Prop := (t.rows.map t.identityOf).Nodup

instance : Decidable t.IdentityUnique := inferInstanceAs (Decidable (List.Nodup _))

/-- `insert_rows`: a primary key rejects a repeated identity. -/
def insertRows (rows : List (NewRow C V)) : Except Refusal (Table C V) :=
  let t' := { t with rows := t.rows ++ rows.map NewRow.toRow }
  if t.constrained ∧ ¬ t'.IdentityUnique then
    throw { errorClass := .destinationDataRejection, target := t.name }
  else pure t'

/-- `assert_identity_is_unique`. -/
def assertIdentityIsUnique : Except Refusal Unit :=
  if t.constrained ∨ t.IdentityUnique then pure ()
  else throw {
    errorClass := .destinationIdentityCollision
    target := t.name
    message := t.name ++ " holds identity values more than once. Exactly-once delivery means " ++
      "one row per identity, so this commit group is rolled back (ADR 0001 §15/A21)." }

/-- A row agrees with an image on every column the image names. -/
def matchesRow (image : Image C V) (r : DestRow C V) : Bool :=
  image.items.all fun p => r.values p.1 = p.2

/-- `delete_matching_row`: remove the rows that carry the event id of one matching row. A NULL
event id equals nothing. -/
def deleteMatchingRow (engine : LimitOne C V) (image : Image C V) : ℕ × Table C V :=
  match (engine.pick (t.rows.filter (matchesRow image))).bind (·.rowMeta.eventId) with
  | none => (0, t)
  | some id =>
    ((t.rows.filter fun r => r.rowMeta.eventId = some id).length,
      { t with rows := t.rows.filter fun r => r.rowMeta.eventId ≠ some id })

/-! ### Probes -/

/-- `_probe_table`: whether there is a destination table to read. A table created inside the
transaction is empty by construction. -/
def probeable (created : Bool) (item : TableWork C V) : Bool :=
  !item.snapshot && !created && item.keyColumns ≠ [] && t.present

/-- The planner's probe of the table; `applied` holds the keyless events already committed. -/
def probe (created : Bool) (applied : String → Bool) : Probe C V where
  startExists item key :=
    t.probeable created item && t.rows.any fun r =>
      t.keyAt item.keyColumns r = t.canonicalKey (rawKey key)
  startMatches item key image :=
    let comparable := image.items.filter fun p => p.1 ∈ t.columns
    if t.probeable created item && comparable ≠ [] then
      some (t.rows.any fun r => t.keyAt item.keyColumns r = t.canonicalKey (rawKey key) &&
        comparable.all fun p => r.values p.1 = p.2)
    else none
  keylessEventApplied item eventId := !item.snapshot && applied eventId

/-! ### Sparse updates -/

omit [DecidableEq C] [DecidableEq V] in
theorem flatten_statements (pending us : List (SparseUpdate C V)) :
    (statements pending us).flatten = pending ++ us := by
  induction us generalizing pending with
  | nil =>
    unfold statements
    split_ifs with h
    · simp [h]
    · simp
  | cons u us ih =>
    unfold statements
    split_ifs with h
    · rw [List.flatten_cons, ih]
      simp
    · rw [ih]
      simp

omit [DecidableEq V] in
theorem flatten_updateStatements (updates : List (SparseUpdate C V)) :
    (t.updateStatements updates).flatten.Perm updates := by
  unfold updateStatements
  split_ifs with h
  · rw [← List.flatMap_def, List.flatMap_singleton']
  · have hflat (gs : List (List (SparseUpdate C V))) :
        (gs.flatMap (statements [])).flatten = gs.flatten := by
      induction gs with
      | nil => rfl
      | cons g gs ih =>
        rw [List.flatMap_cons, List.flatten_append, flatten_statements, ih]
        rfl
    rw [hflat]
    exact Dict.flatten_values_groupBy _ _

/-- **Batching does not matter.** Sparse updates that address distinct keys and keep the key of the
row they address are one assignment to each addressed row, and as many rows are returned as wear
one of the keys. -/
theorem updateRows_eq (keyColumns : List C) (updates : List (SparseUpdate C V))
    (hkeep : KeepsKey (t.keyAt keyColumns) Assignment.assignTo (updates.map t.address))
    (hd : ((updates.map t.address).map Prod.fst).Nodup) :
    t.updateRows keyColumns updates =
      (t.rows.countP fun r => t.keyAt keyColumns r ∈ (updates.map t.address).map Prod.fst,
        { t with
          rows := t.rows.map
            (assign (t.keyAt keyColumns) Assignment.assignTo (updates.map t.address)) }) := by
  have hperm : (((t.updateStatements updates).map (·.map t.address)).flatten).Perm
      (updates.map t.address) := by
    rw [← List.map_flatten]
    exact (t.flatten_updateStatements updates).map t.address
  have hkeep' : KeepsKey (t.keyAt keyColumns) Assignment.assignTo
      ((t.updateStatements updates).map (·.map t.address)).flatten :=
    fun p hp => hkeep p (hperm.mem_iff.1 hp)
  have hd' : (((t.updateStatements updates).map (·.map t.address)).flatten.map Prod.fst).Nodup :=
    (hperm.map Prod.fst).nodup_iff.2 hd
  unfold updateRows
  rw [foldl_pass _ _ _ hkeep' hd', assign_perm _ _ hperm hd']
  simp only [Nat.zero_add, (hperm.map Prod.fst).mem_iff]

/-! ### Keys compared as they are written -/

/-- The table, comparing keys as they are written. -/
def byText : Table C V := { t with canonicalKey := id }

section ByText

variable {t}

omit [DecidableEq C] [DecidableEq V] in
theorem keyAt_byText (ht : t.canonicalKey = id) (keyColumns : List C) :
    t.keyAt keyColumns = keyOf keyColumns := by
  funext r
  rw [keyAt, ht, id]

omit [DecidableEq C] [DecidableEq V] in
theorem map_address_byText (ht : t.canonicalKey = id) (updates : List (SparseUpdate C V)) :
    updates.map t.address = updates := by
  have hid : t.address = id := by
    funext u
    rw [address, ht]
    rfl
  rw [hid, List.map_id]

omit [DecidableEq C] in
theorem deleteKeys_byText (ht : t.canonicalKey = id) (keyColumns : List C)
    (keys : List (List (Option V))) :
    t.deleteKeys keyColumns keys = { t with rows := rowsWithout keyColumns keys t.rows } := by
  rw [deleteKeys, keyAt_byText ht, ht, List.map_id]
  rfl

theorem updateRows_byText (ht : t.canonicalKey = id) (keyColumns : List C)
    (updates : List (SparseUpdate C V))
    (hkeep : KeepsKey (keyOf keyColumns) Assignment.assignTo updates)
    (hd : (updates.map Prod.fst).Nodup) :
    t.updateRows keyColumns updates =
      (t.rows.countP fun r => keyOf keyColumns r ∈ updates.map Prod.fst,
        { t with rows := t.rows.map (assign (keyOf keyColumns) Assignment.assignTo updates) }) := by
  have haddress := map_address_byText ht updates
  have hkey := keyAt_byText ht keyColumns
  rw [updateRows_eq t keyColumns updates (by rwa [hkey, haddress]) (by rwa [haddress]), hkey,
    haddress]

end ByText

end Table

end CdcFlight
