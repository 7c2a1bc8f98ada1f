import CdcFlight.EventLedger

/-!
# The batched ledger

`destination.EventLedgerBatch` answers the claims of one plan from a cache and inserts the new rows
at the end. The cache is filled with the rows of a whole target, of one source transaction, or of
a set of transactions read ahead, and with the identities claimed in the plan itself. Beside it
stands `destination.claim_event_ledger` without a batch, which reads one row and inserts one row a
claim, here with every column of the ledger and with any text in the `state` column.

A row carries the source LSN that the caller of the claim gives beside the identity. The batch
keeps the identity itself, with the identity's own source LSN.

## Main definitions

* `CdcFlight.LedgerTable`: the ledger, with its primary key.
* `CdcFlight.LedgerTable.claimEventLedger`: one claim, row by row.
* `CdcFlight.EventLedgerBatch.claim`, `CdcFlight.EventLedgerBatch.flush`: the batch.
* `CdcFlight.BatchMatches`: the batch answers and leaves the ledger as the claims row by row do.

## Main results

* `CdcFlight.assertSameIdentity_eq`: the check of the batch is the ledger's check of the row.
* `CdcFlight.Caches.claim`: what one claim of the batch answers and keeps.
* `CdcFlight.batchMatches_iff`: when the batch and the claims row by row agree.
-/

namespace CdcFlight

open Lib

/-! ### The checks of an identity -/

/-- A value of a checked column. -/
inductive LedgerValue
  | text (value : Option String)
  | number (value : Option ℤ)
deriving DecidableEq, Repr

/-- The text of `delete_mode`. -/
def DeleteMode.text : DeleteMode → String
  | .hard => "hard"
  | .soft => "soft"

/-- The columns `assert_same_identity` checks before the source LSN. -/
def checksBeforeLsn (identity : EventIdentity) : List (String × LedgerValue) :=
  [("operation", .text (identity.operation.map Op.code)),
    ("payload_digest", .text identity.payloadDigest),
    ("source_schema", .text identity.sourceSchema),
    ("source_table", .text identity.sourceTable),
    ("source_cluster_id", .text identity.sourceClusterId),
    ("source_timeline", .number identity.sourceTimeline),
    ("relation_generation", .text identity.relationGeneration),
    ("txn_id", .text identity.txnId),
    ("commit_lsn", .number (identity.commitLsn.map Int.ofNat))]

/-- The columns it checks after the source LSN. -/
def checksAfterLsn (identity : EventIdentity) : List (String × LedgerValue) :=
  [("total_order", .number identity.totalOrder),
    ("key_guard_digest", .text identity.keyGuardDigest),
    ("policy_epoch", .number (some (identity.policyEpoch : ℤ))),
    ("snapshot_epoch", .number (identity.snapshotEpoch.map Int.ofNat)),
    ("policy_digest", .text identity.policyDigest),
    ("delete_mode", .text (identity.deleteMode.map DeleteMode.text))]

/-- `checks` of `assert_same_identity`, in its order. -/
def ledgerChecks (identity : EventIdentity) : List (String × LedgerValue) :=
  checksBeforeLsn identity ++
    ("source_lsn", .number (identity.sourceLsn.map Int.ofNat)) :: checksAfterLsn identity

/-- `DestinationIdentityCollision` with what its message names: the event, the column, the durable
and the replayed value. -/
structure LedgerCollision where
  eventId : String
  field : String
  durable : LedgerValue
  replay : LedgerValue
  sourceSchema : Option String
  sourceTable : Option String
  target : String
deriving DecidableEq, Repr

/-- The first column in which two lists of checks differ. -/
def firstDifference (existing identity : List (String × LedgerValue)) :
    Option (String × LedgerValue × LedgerValue) :=
  ((existing.zip identity).find? fun pair => pair.1.2 ≠ pair.2.2).map fun pair =>
    (pair.2.1, pair.1.2, pair.2.2)

/-- `assert_same_identity`, with the target its callers add to the error. -/
def assertSameRow (existing identity : EventIdentity) (target : String) :
    Except LedgerCollision Unit :=
  match firstDifference (ledgerChecks existing) (ledgerChecks identity) with
  | some (field, durable, replay) => .error
      { eventId := identity.eventId, field, durable, replay
        sourceSchema := identity.sourceSchema, sourceTable := identity.sourceTable, target }
  | none => .ok ()

/-! ### The ledger -/

/-- A row of `event_ledger`. The `source_lsn` column is that of the identity. -/
structure LedgerRecord where
  pipeline : String
  targetTable : String
  identity : EventIdentity
  state : String
  appliedAt : ℕ
deriving DecidableEq, Repr

/-- The primary key. -/
def LedgerRecord.key (row : LedgerRecord) : String × String × String :=
  (row.pipeline, row.targetTable, row.identity.eventId)

/-- The table `event_ledger`. -/
@[ext]
structure LedgerTable where
  rows : List LedgerRecord
  /-- `PRIMARY KEY (pipeline, target_table, event_id)`. -/
  primaryKey : (rows.map LedgerRecord.key).Nodup

/-- The arguments of a claim, with the time `now()` returns to it. -/
structure LedgerClaim where
  identity : EventIdentity
  targetTable : String
  sourceLsn : Option ℕ := none
  snapshot : Bool := false
  state : String := "applied"
  now : ℕ := 0
deriving DecidableEq, Repr

/-- The row a claim inserts. -/
def LedgerClaim.row (pipeline : String) (claim : LedgerClaim) : LedgerRecord where
  pipeline := pipeline
  targetTable := claim.targetTable
  identity := { claim.identity with sourceLsn := claim.sourceLsn }
  state := claim.state
  appliedAt := claim.now

/-- The target and the event identity of a claim. -/
def LedgerClaim.key (claim : LedgerClaim) : String × String :=
  (claim.targetTable, claim.identity.eventId)

/-- The states that count as applied. -/
def countsAsApplied (state : String) : Bool :=
  state = "applied" || state = "internal" || state = "replayed"

/-- What a claim returns or raises. -/
abbrev LedgerAnswer := Except LedgerCollision Bool

/-- The answer to a claim whose event has a row or an entry. -/
def answerFrom (existing : EventIdentity) (state : String) (claim : LedgerClaim) : LedgerAnswer :=
  (assertSameRow existing claim.identity claim.targetTable).map fun _ => countsAsApplied state

namespace LedgerTable

/-- `read_event_ledger`, by target and event identity. -/
def readEventLedger (ledger : LedgerTable) (pipeline : String) (key : String × String) :
    Option LedgerRecord :=
  ledger.rows.find? fun row => row.key = (pipeline, key)

theorem readEventLedger_eq_none_iff {ledger : LedgerTable} {pipeline : String}
    {key : String × String} : ledger.readEventLedger pipeline key = none ↔
      (pipeline, key) ∉ ledger.rows.map LedgerRecord.key := by
  simp [readEventLedger, List.find?_eq_none]

/-- A row under a primary key is the row that is read. -/
theorem readEventLedger_of_mem {ledger : LedgerTable} {pipeline : String} {row : LedgerRecord}
    (h : row ∈ ledger.rows) (hpipeline : row.pipeline = pipeline) :
    ledger.readEventLedger pipeline (row.targetTable, row.identity.eventId) = some row := by
  have hkey : row.key = (pipeline, row.targetTable, row.identity.eventId) := by
    rw [LedgerRecord.key, hpipeline]
  cases hread : ledger.readEventLedger pipeline (row.targetTable, row.identity.eventId) with
  | none =>
    rw [readEventLedger_eq_none_iff, ← hkey] at hread
    exact absurd (List.mem_map_of_mem h) hread
  | some row' =>
    have hmem := List.mem_of_find?_eq_some hread
    have hfound := List.find?_some hread
    rw [decide_eq_true_eq, ← hkey] at hfound
    rw [List.inj_on_of_nodup_map ledger.primaryKey hmem h hfound]

theorem key_of_readEventLedger {ledger : LedgerTable} {pipeline : String} {key : String × String}
    {row : LedgerRecord} (h : ledger.readEventLedger pipeline key = some row) :
    row ∈ ledger.rows ∧ row.pipeline = pipeline ∧
      (row.targetTable, row.identity.eventId) = key := by
  have hfound := List.find?_some h
  rw [decide_eq_true_eq, LedgerRecord.key, Prod.mk.injEq] at hfound
  exact ⟨List.mem_of_find?_eq_some h, hfound⟩

/-- `INSERT` of a row whose key is free. -/
def insert (ledger : LedgerTable) (row : LedgerRecord)
    (h : row.key ∉ ledger.rows.map LedgerRecord.key) : LedgerTable where
  rows := ledger.rows ++ [row]
  primaryKey := by
    rw [List.map_append]
    exact List.nodup_append.2 ⟨ledger.primaryKey, List.nodup_singleton _, by
      rintro key hkey key' hkey' rfl
      exact h (List.mem_singleton.1 hkey' ▸ hkey)⟩

/-- `apply_sql.bulk_insert` into the ledger, which the primary key may refuse. -/
def bulkInsert (ledger : LedgerTable) (rows : List LedgerRecord) : Except String LedgerTable :=
  if h : ((ledger.rows ++ rows).map LedgerRecord.key).Nodup then .ok ⟨ledger.rows ++ rows, h⟩
  else .error "Constraint Error: Duplicate key violates primary key constraint"

/-- `destination.claim_event_ledger` without a batch: the answer, and the ledger afterwards. -/
def claimEventLedger (ledger : LedgerTable) (pipeline : String) (claim : LedgerClaim) :
    LedgerAnswer × LedgerTable :=
  match h : ledger.readEventLedger pipeline claim.key with
  | some existing => (answerFrom existing.identity existing.state claim, ledger)
  | none => (.ok false, ledger.insert (claim.row pipeline) (readEventLedger_eq_none_iff.1 h))

end LedgerTable

/-! ### The batch -/

/-- The mapping the batch keeps of an event: the checked columns and the state. -/
structure LedgerEntry where
  identity : EventIdentity
  state : String
deriving DecidableEq, Repr

/-- `_row_from_values`. -/
def LedgerRecord.entry (row : LedgerRecord) : LedgerEntry := ⟨row.identity, row.state⟩

/-- The pending mapping of a claim: `identity.as_dict()` with the state. -/
def LedgerClaim.entry (claim : LedgerClaim) : LedgerEntry := ⟨claim.identity, claim.state⟩

/-- `destination.EventLedgerBatch`. -/
structure EventLedgerBatch where
  pipeline : String
  known : Dict (String × String) LedgerEntry := ∅
  loadedTargets : List String := []
  loadedTransactions : List (String × String) := []
  pending : List LedgerRecord := []

namespace EventLedgerBatch

/-- The rows of a query, put into the cache. -/
def learn (batch : EventLedgerBatch) (rows : List LedgerRecord) : EventLedgerBatch :=
  { batch with
    known := rows.foldl
      (fun known row => known.set (row.targetTable, row.identity.eventId) row.entry) batch.known }

/-- The ledger rows of the pipeline and a target. -/
def targetRows (batch : EventLedgerBatch) (ledger : LedgerTable) (target : String) :
    List LedgerRecord :=
  ledger.rows.filter fun row => row.pipeline = batch.pipeline ∧ row.targetTable = target

/-- `_load_target`. -/
def loadTarget (batch : EventLedgerBatch) (ledger : LedgerTable) (target : String) :
    EventLedgerBatch :=
  if target ∈ batch.loadedTargets then batch
  else { batch.learn (batch.targetRows ledger target) with
    loadedTargets := target :: batch.loadedTargets }

/-- The rows of some transactions of a target, and the note that they are loaded. -/
def loadAmong (batch : EventLedgerBatch) (ledger : LedgerTable) (target : String)
    (txnIds : List String) : EventLedgerBatch :=
  { batch.learn ((batch.targetRows ledger target).filter fun row =>
      ∃ txnId ∈ txnIds, row.identity.txnId = some txnId) with
    loadedTransactions := txnIds.map (Prod.mk target) ++ batch.loadedTransactions }

/-- `_load_transaction`. -/
def loadTransaction (batch : EventLedgerBatch) (ledger : LedgerTable) (target txnId : String) :
    EventLedgerBatch :=
  if (target, txnId) ∈ batch.loadedTransactions then batch
  else batch.loadAmong ledger target [txnId]

/-- The slices of a list, each of the given length but the last. -/
def slices (size : ℕ) (l : List String) : List (List String) :=
  (List.range ((l.length + size - 1) / size)).map fun i => (l.drop (i * size)).take size

/-- The transactions of a target that a prefetch still has to load, sorted. -/
def notLoaded (batch : EventLedgerBatch) (target : String) (txnIds : List String) :
    List String :=
  (txnIds.dedup.filter fun txnId => (target, txnId) ∉ batch.loadedTransactions).mergeSort

/-- `prefetch_transactions`: the transactions of each target, in slices of 1024. -/
def prefetchTransactions (batch : EventLedgerBatch) (ledger : LedgerTable)
    (pairs : List (String × Option String)) : EventLedgerBatch :=
  let named := pairs.filterMap fun pair => pair.2.map (Prod.mk pair.1)
  let grouped := Dict.groupBy Prod.fst named
  grouped.items.foldl
    (fun batch group =>
      (slices 1024 (batch.notLoaded group.1 (group.2.map Prod.snd))).foldl
        (fun batch txnIds => batch.loadAmong ledger group.1 txnIds) batch) batch

/-- The loading strategy of a claim. -/
def loadFor (batch : EventLedgerBatch) (ledger : LedgerTable) (claim : LedgerClaim) :
    EventLedgerBatch :=
  if claim.snapshot then batch.loadTarget ledger claim.targetTable
  else match claim.identity.txnId with
    | some txnId => batch.loadTransaction ledger claim.targetTable txnId
    | none => batch

/-- A claim whose event is not cached: the identity is kept and the row is pending. -/
def record (batch : EventLedgerBatch) (claim : LedgerClaim) : EventLedgerBatch :=
  { batch with
    known := batch.known.set claim.key claim.entry
    pending := batch.pending ++ [claim.row batch.pipeline] }

/-- `EventLedgerBatch.claim`: the answer, and the batch afterwards. Every cached mapping is a
`dict`, so that the branch for other values is not taken. -/
def claim (batch : EventLedgerBatch) (ledger : LedgerTable) (claim : LedgerClaim) :
    LedgerAnswer × EventLedgerBatch :=
  let loaded := batch.loadFor ledger claim
  match loaded.known.get? claim.key with
  | some observed => (answerFrom observed.identity observed.state claim, loaded)
  | none =>
    if claim.snapshot = false ∧ claim.identity.txnId = none then
      match ledger.readEventLedger loaded.pipeline claim.key with
      | some existing =>
        (answerFrom existing.identity existing.state claim,
          { loaded with known := loaded.known.set claim.key existing.entry })
      | none => (.ok false, loaded.record claim)
    else (.ok false, loaded.record claim)

/-- `flush`, on the ledger of the transaction. -/
def flush (batch : EventLedgerBatch) (ledger : LedgerTable) : Except String LedgerTable :=
  if batch.pending = [] then .ok ledger else ledger.bulkInsert batch.pending

end EventLedgerBatch

/-! ### Runs -/

/-- What a plan asks of the ledger. -/
inductive LedgerAction
  | prefetch (pairs : List (String × Option String))
  | claim (claim : LedgerClaim)
deriving DecidableEq, Repr

/-- The claims of a sequence. -/
def claimsOf (actions : List LedgerAction) : List LedgerClaim :=
  actions.filterMap fun
    | .prefetch _ => none
    | .claim claim => some claim

/-- The answers of the batch to a sequence, and the batch afterwards. A collision leaves the batch
as it is. -/
def EventLedgerBatch.run (ledger : LedgerTable) :
    EventLedgerBatch → List LedgerAction → List LedgerAnswer × EventLedgerBatch
  | batch, [] => ([], batch)
  | batch, .prefetch pairs :: actions =>
    run ledger (batch.prefetchTransactions ledger pairs) actions
  | batch, .claim claim :: actions =>
    let step := batch.claim ledger claim
    let rest := run ledger step.2 actions
    (step.1 :: rest.1, rest.2)

/-- The answers row by row, and the ledger afterwards. -/
def LedgerTable.run (pipeline : String) :
    LedgerTable → List LedgerClaim → List LedgerAnswer × LedgerTable
  | ledger, [] => ([], ledger)
  | ledger, claim :: claims =>
    let step := ledger.claimEventLedger pipeline claim
    let rest := run pipeline step.2 claims
    (step.1 :: rest.1, rest.2)

/-- Durable rows carry the transaction id of the claims of their event, so that what is read ahead
by transaction is what the claims are about. -/
def SameTransactions (pipeline : String) (ledger : LedgerTable) (claims : List LedgerClaim) :
    Prop :=
  ∀ claim ∈ claims, ∀ row, ledger.readEventLedger pipeline claim.key = some row →
    row.identity.txnId = claim.identity.txnId

/-- The batch answers like the claims row by row, and the flush leaves the ledger they leave. -/
def BatchMatches (pipeline : String) (ledger : LedgerTable) (actions : List LedgerAction) : Prop :=
  (EventLedgerBatch.run ledger { pipeline } actions).1 =
      (ledger.run pipeline (claimsOf actions)).1 ∧
    (EventLedgerBatch.run ledger { pipeline } actions).2.flush ledger =
      .ok (ledger.run pipeline (claimsOf actions)).2

/-- The event of a claim was first claimed, after `earlier` claims and without a durable row, with
the identity's own source LSN, unless the two identities differ in a column checked before. -/
def RecordedAsOwn (pipeline : String) (ledger : LedgerTable) (earlier : List LedgerClaim)
    (claim : LedgerClaim) : Prop :=
  ∀ first, earlier.find? (fun c => c.key = claim.key) = some first →
    ledger.readEventLedger pipeline claim.key = none →
    checksBeforeLsn first.identity = checksBeforeLsn claim.identity →
    first.sourceLsn = first.identity.sourceLsn

/-- Every repeated claim of a sequence is so, after the claims of the sequence before it. -/
def RepeatsOwn (pipeline : String) (ledger : LedgerTable) (earlier claims : List LedgerClaim) :
    Prop :=
  ∀ before claim after, claims = before ++ claim :: after →
    RecordedAsOwn pipeline ledger (earlier ++ before) claim

/-! ### Comparing the answers -/

section Answers

variable {existing existing' identity : EventIdentity} {target : String}

theorem identityChecks_eq :
    identityChecks existing identity = ((ledgerChecks existing).zip (ledgerChecks identity)).map
      fun pair => (pair.2.1, decide (pair.1.2 = pair.2.2)) := by
  have hop : Function.Injective Op.code := by
    intro a b; cases a <;> cases b <;> decide
  have hmode : Function.Injective DeleteMode.text := by
    intro a b; cases a <;> cases b <;> decide
  have hnat : Function.Injective Int.ofNat := fun _ _ h => Int.ofNat.inj h
  simp only [identityChecks, ledgerChecks, checksBeforeLsn, checksAfterLsn, List.cons_append,
    List.nil_append, List.zip_cons_cons, List.zip_nil_right, List.map_cons, List.map_nil,
    LedgerValue.text.injEq, LedgerValue.number.injEq, (Option.map_injective hop).eq_iff,
    (Option.map_injective hmode).eq_iff, (Option.map_injective hnat).eq_iff, Option.some.injEq,
    Nat.cast_inj]

/-- The check of the ledger row by row, with the values of its error left out. -/
theorem assertSameIdentity_eq :
    assertSameIdentity existing identity target =
      (assertSameRow existing identity target).mapError fun collision =>
        { field := collision.field, eventId := collision.eventId, target := collision.target
          sourceSchema := collision.sourceSchema, sourceTable := collision.sourceTable } := by
  rw [assertSameIdentity, assertSameRow, identityChecks_eq, List.find?_map, firstDifference]
  simp only [Function.comp_def, decide_not]
  cases ((ledgerChecks existing).zip (ledgerChecks identity)).find?
    fun pair => !decide (pair.1.2 = pair.2.2) with
  | none => rfl
  | some pair => rfl

/-- A difference is looked for in the first part, then in the second. -/
theorem firstDifference_append {a b x y : List (String × LedgerValue)}
    (h : a.length = b.length) :
    firstDifference (a ++ x) (b ++ y) = (firstDifference a b).or (firstDifference x y) := by
  rw [firstDifference, List.zip_append h, List.find?_append, Option.map_or]
  rfl

theorem firstDifference_cons (p q : String × LedgerValue) (x y : List (String × LedgerValue)) :
    firstDifference (p :: x) (q :: y) =
      if p.2 = q.2 then firstDifference x y else some (q.1, p.2, q.2) := by
  by_cases h : p.2 = q.2 <;> simp [firstDifference, h]

theorem field_of_firstDifference {a b : List (String × LedgerValue)} {field : String}
    {values : LedgerValue × LedgerValue} (h : firstDifference a b = some (field, values)) :
    field ∈ b.map Prod.fst := by
  rw [firstDifference, Option.map_eq_some_iff] at h
  obtain ⟨pair, hpair, hfield⟩ := h
  obtain rfl : pair.2.1 = field := congrArg Prod.fst hfield
  exact List.mem_map_of_mem (List.of_mem_zip (List.mem_of_find?_eq_some hpair)).2

/-- Lists that name the same columns and have no difference are equal. -/
theorem eq_of_firstDifference {a b : List (String × LedgerValue)}
    (hnames : a.map Prod.fst = b.map Prod.fst) (h : firstDifference a b = none) : a = b := by
  induction a generalizing b with
  | nil => exact (List.map_eq_nil_iff.1 hnames.symm).symm
  | cons p a ih =>
    obtain _ | ⟨q, b⟩ := b
    · simp at hnames
    · rw [List.map_cons, List.map_cons, List.cons.injEq] at hnames
      rw [firstDifference_cons] at h
      split_ifs at h with hvalue
      rw [ih hnames.2 h, Prod.ext hnames.1 hvalue]

/-- The first differing column of two identities. -/
theorem firstDifference_ledgerChecks :
    firstDifference (ledgerChecks existing) (ledgerChecks identity) =
      (firstDifference (checksBeforeLsn existing) (checksBeforeLsn identity)).or
        (if existing.sourceLsn = identity.sourceLsn then
          firstDifference (checksAfterLsn existing) (checksAfterLsn identity)
        else some ("source_lsn", .number (existing.sourceLsn.map Int.ofNat),
          .number (identity.sourceLsn.map Int.ofNat))) := by
  have hnumber : LedgerValue.number (existing.sourceLsn.map Int.ofNat) =
      .number (identity.sourceLsn.map Int.ofNat) ↔ existing.sourceLsn = identity.sourceLsn := by
    rw [LedgerValue.number.injEq]
    exact (Option.map_injective fun _ _ h => Int.ofNat.inj h).eq_iff
  have hlength : (checksBeforeLsn existing).length = (checksBeforeLsn identity).length := rfl
  rw [ledgerChecks, ledgerChecks, firstDifference_append hlength, firstDifference_cons]
  simp only [hnumber]

/-- Only the first differing column decides what `assert_same_identity` raises. -/
theorem assertSameRow_eq_iff : assertSameRow existing identity target =
      assertSameRow existing' identity target ↔
    firstDifference (ledgerChecks existing) (ledgerChecks identity) =
      firstDifference (ledgerChecks existing') (ledgerChecks identity) := by
  refine ⟨fun h => ?_, fun h => by rw [assertSameRow, assertSameRow, h]⟩
  unfold assertSameRow at h
  cases hleft : firstDifference (ledgerChecks existing) (ledgerChecks identity) with
  | none =>
    cases hright : firstDifference (ledgerChecks existing') (ledgerChecks identity) with
    | none => rfl
    | some d => simp [hleft, hright] at h
  | some d =>
    cases hright : firstDifference (ledgerChecks existing') (ledgerChecks identity) with
    | none => simp [hleft, hright] at h
    | some d' =>
      simp only [hleft, hright, Except.error.injEq, LedgerCollision.mk.injEq] at h
      rw [Option.some.injEq]
      exact Prod.ext h.2.1 (Prod.ext h.2.2.1 h.2.2.2.1)

/-- **A row with the source LSN of the caller answers like the identity itself exactly when the
two are the same or the check ends before them.** -/
theorem answerFrom_eq_iff {lsn : Option ℕ} {state : String} {claim : LedgerClaim} :
    answerFrom identity state claim = answerFrom { identity with sourceLsn := lsn } state claim ↔
      (checksBeforeLsn identity = checksBeforeLsn claim.identity → lsn = identity.sourceLsn) := by
  have hmap : answerFrom identity state claim =
        answerFrom { identity with sourceLsn := lsn } state claim ↔
      assertSameRow identity claim.identity claim.targetTable =
        assertSameRow { identity with sourceLsn := lsn } claim.identity claim.targetTable := by
    refine ⟨fun h => ?_, fun h => by rw [answerFrom, answerFrom, h]⟩
    unfold answerFrom at h
    cases hleft : assertSameRow identity claim.identity claim.targetTable <;>
      cases hright : assertSameRow { identity with sourceLsn := lsn } claim.identity
        claim.targetTable <;> simp_all [Except.map]
  have hbefore : checksBeforeLsn { identity with sourceLsn := lsn } = checksBeforeLsn identity :=
    rfl
  have hafter : checksAfterLsn { identity with sourceLsn := lsn } = checksAfterLsn identity := rfl
  rw [hmap, assertSameRow_eq_iff, firstDifference_ledgerChecks, firstDifference_ledgerChecks,
    hbefore, hafter]
  by_cases hsame : checksBeforeLsn identity = checksBeforeLsn claim.identity
  swap
  · obtain ⟨d, hd⟩ := Option.ne_none_iff_exists'.1 fun hnone =>
      hsame (eq_of_firstDifference rfl hnone)
    simp [hd, hsame]
  have hnone : firstDifference (checksBeforeLsn identity) (checksBeforeLsn claim.identity) =
      none := by
    rw [hsame, firstDifference, Option.map_eq_none_iff, List.find?_eq_none]
    intro pair hpair
    obtain ⟨i, hi, rfl⟩ := List.mem_iff_getElem.1 hpair
    simp
  -- A difference after the source LSN never names the source LSN.
  have hfield (d : String × LedgerValue × LedgerValue) (hd : firstDifference
      (checksAfterLsn identity) (checksAfterLsn claim.identity) = some d) : d.1 ≠ "source_lsn" := by
    intro hname
    have hmem := field_of_firstDifference hd
    rw [hname] at hmem
    simp [checksAfterLsn] at hmem
  rw [hnone, Option.none_or, Option.none_or, forall_prop_of_true hsame]
  constructor
  · intro h
    split_ifs at h with hown hgiven hgiven
    · exact hgiven.trans hown.symm
    · exact absurd rfl (hfield _ h)
    · exact absurd rfl (hfield _ h.symm)
    · simp only [Option.some.injEq, Prod.mk.injEq, LedgerValue.number.injEq, true_and,
        and_true] at h
      exact (Option.map_injective (fun _ _ h => Int.ofNat.inj h) h).symm
  · rintro rfl
    rfl

end Answers

/-! ### What the batch knows -/

section Learn

variable {κ ν α : Type} [DecidableEq κ]

/-- Assignments under other keys leave a key as it is. -/
theorem get?_foldl_set_of_ne {l : List α} {k : α → κ} {v : α → ν} {d : Dict κ ν} {key : κ}
    (h : ∀ a ∈ l, k a ≠ key) :
    (l.foldl (fun d a => d.set (k a) (v a)) d).get? key = d.get? key := by
  induction l generalizing d with
  | nil => rfl
  | cons a l ih =>
    rw [List.foldl_cons, ih fun b hb => h b (List.mem_cons_of_mem _ hb),
      Dict.get?_set_of_ne _ _ (h a List.mem_cons_self).symm]

/-- A key that is always assigned one value has it. -/
theorem get?_foldl_set_of_mem {l : List α} {k : α → κ} {v : α → ν} {d : Dict κ ν} {a : α}
    (ha : a ∈ l) (h : ∀ b ∈ l, k b = k a → v b = v a) :
    (l.foldl (fun d a => d.set (k a) (v a)) d).get? (k a) = some (v a) := by
  induction l generalizing d a with
  | nil => simp at ha
  | cons b l ih =>
    rw [List.foldl_cons]
    by_cases hlater : ∃ c ∈ l, k c = k a
    · obtain ⟨c, hc, hkey⟩ := hlater
      rw [← hkey, ← h c (List.mem_cons_of_mem _ hc) hkey]
      exact ih hc fun e he heq => by
        rw [h e (List.mem_cons_of_mem _ he) (heq.trans hkey), h c (List.mem_cons_of_mem _ hc) hkey]
    · push Not at hlater
      obtain rfl : a = b := (List.mem_cons.1 ha).resolve_right fun hmem => hlater a hmem rfl
      rw [get?_foldl_set_of_ne hlater, Dict.get?_set_self]

end Learn

/-- The batch over a ledger against the ledger row by row, when the claims `recorded` are those
that inserted a row. -/
structure Caches (ledger reference : LedgerTable) (recorded : List LedgerClaim)
    (batch : EventLedgerBatch) : Prop where
  pending : batch.pending = recorded.map (LedgerClaim.row batch.pipeline)
  rows : reference.rows = ledger.rows ++ batch.pending
  /-- A cached event with a durable row is cached as that row. -/
  durable : ∀ key row entry, ledger.readEventLedger batch.pipeline key = some row →
    batch.known.get? key = some entry → entry = row.entry
  /-- An event without a durable row is cached as the claim that inserted its row. -/
  own : ∀ key, ledger.readEventLedger batch.pipeline key = none →
    batch.known.get? key =
      (recorded.find? fun claim => claim.key = key).map LedgerClaim.entry
  targets : ∀ key row, ledger.readEventLedger batch.pipeline key = some row →
    key.1 ∈ batch.loadedTargets → batch.known.get? key = some row.entry
  transactions : ∀ key row txnId, ledger.readEventLedger batch.pipeline key = some row →
    row.identity.txnId = some txnId → (key.1, txnId) ∈ batch.loadedTransactions →
    batch.known.get? key = some row.entry

namespace Caches

variable {ledger reference : LedgerTable} {recorded : List LedgerClaim} {batch : EventLedgerBatch}
  {key : String × String} {row : LedgerRecord} {rows : List LedgerRecord}

/-- Learning leaves an event that is not among the rows as it is. -/
theorem get?_learn_of_notMem (hrows : ∀ row ∈ rows, row ∈ ledger.rows ∧
      row.pipeline = batch.pipeline)
    (h : ∀ row ∈ rows, ledger.readEventLedger batch.pipeline key ≠ some row) :
    (batch.learn rows).known.get? key = batch.known.get? key := by
  refine get?_foldl_set_of_ne fun row hrow hkey => h row hrow ?_
  rw [← hkey]
  exact LedgerTable.readEventLedger_of_mem (hrows row hrow).1 (hrows row hrow).2

theorem get?_learn_of_mem (hrows : ∀ row ∈ rows, row ∈ ledger.rows ∧
      row.pipeline = batch.pipeline) (hmem : row ∈ rows)
    (h : ledger.readEventLedger batch.pipeline key = some row) :
    (batch.learn rows).known.get? key = some row.entry := by
  rw [← (LedgerTable.key_of_readEventLedger h).2.2]
  refine get?_foldl_set_of_mem hmem fun row' hrow' hkey => ?_
  have hread := LedgerTable.readEventLedger_of_mem (hrows row' hrow').1 (hrows row' hrow').2
  rw [hkey, LedgerTable.readEventLedger_of_mem (hrows row hmem).1 (hrows row hmem).2,
    Option.some.injEq] at hread
  rw [hread]

/-- Rows of the ledger, learned together with notes of what they complete. -/
theorem learn (h : Caches ledger reference recorded batch) (rows : List LedgerRecord)
    (targets : List String) (transactions : List (String × String))
    (hrows : ∀ row ∈ rows, row ∈ ledger.rows ∧ row.pipeline = batch.pipeline)
    (htargets : ∀ row ∈ ledger.rows, row.pipeline = batch.pipeline →
      row.targetTable ∈ targets → row ∈ rows)
    (htransactions : ∀ row ∈ ledger.rows, row.pipeline = batch.pipeline →
      ∀ txnId, row.identity.txnId = some txnId → (row.targetTable, txnId) ∈ transactions →
      row ∈ rows) :
    Caches ledger reference recorded { batch.learn rows with
      loadedTargets := targets ++ batch.loadedTargets
      loadedTransactions := transactions ++ batch.loadedTransactions } := by
  -- A known entry of a durable row stays, since it is the row that would be learned.
  have hstays {key row} (hread : ledger.readEventLedger batch.pipeline key = some row)
      (hknown : batch.known.get? key = some row.entry ∨ row ∈ rows) :
      (batch.learn rows).known.get? key = some row.entry := by
    by_cases hmem : row ∈ rows
    · exact get?_learn_of_mem hrows hmem hread
    · rw [get?_learn_of_notMem hrows fun row' hrow' heq => ?_]
      · exact hknown.resolve_right hmem
      · exact hmem (Option.some.inj (hread.symm.trans heq) ▸ hrow')
  refine ⟨h.pending, h.rows, fun key row entry hread hentry => ?_, fun key hread => ?_,
    fun key row hread hmem => ?_, fun key row txnId hread htxn hmem => ?_⟩
  · by_cases hmem : row ∈ rows
    · exact Option.some.inj (hentry.symm.trans (get?_learn_of_mem hrows hmem hread))
    · refine h.durable key row entry hread (hentry.symm.trans ?_).symm
      exact get?_learn_of_notMem hrows fun row' hrow' heq =>
        hmem (Option.some.inj (hread.symm.trans heq) ▸ hrow')
  · rw [← h.own key hread]
    exact get?_learn_of_notMem hrows fun row _ heq => by cases hread.symm.trans heq
  · obtain ⟨hrow, hpipeline, rfl⟩ := LedgerTable.key_of_readEventLedger hread
    exact hstays hread ((List.mem_append.1 hmem).symm.imp (h.targets _ row hread)
      (htargets row hrow hpipeline))
  · obtain ⟨hrow, hpipeline, rfl⟩ := LedgerTable.key_of_readEventLedger hread
    exact hstays hread ((List.mem_append.1 hmem).symm.imp
      (h.transactions _ row txnId hread htxn) (htransactions row hrow hpipeline txnId htxn))

theorem mem_targetRows {target : String} :
    row ∈ batch.targetRows ledger target ↔
      row ∈ ledger.rows ∧ row.pipeline = batch.pipeline ∧ row.targetTable = target := by
  rw [EventLedgerBatch.targetRows, List.mem_filter, decide_eq_true_eq]

theorem loadTarget (h : Caches ledger reference recorded batch) (target : String) :
    Caches ledger reference recorded (batch.loadTarget ledger target) := by
  rw [EventLedgerBatch.loadTarget]
  split_ifs
  · exact h
  · refine h.learn (batch.targetRows ledger target) [target] [] ?_ ?_ ?_
    · exact fun row hrow => (mem_targetRows.1 hrow).imp_right And.left
    · exact fun row hrow hpipeline htarget =>
        mem_targetRows.2 ⟨hrow, hpipeline, List.mem_singleton.1 htarget⟩
    · exact fun row _ _ txnId _ hmem => (List.not_mem_nil hmem).elim

theorem loadAmong (h : Caches ledger reference recorded batch) (target : String)
    (txnIds : List String) :
    Caches ledger reference recorded (batch.loadAmong ledger target txnIds) := by
  refine h.learn _ [] _ ?_ (fun row _ _ hmem => (List.not_mem_nil hmem).elim) ?_
  · exact fun row hrow => (mem_targetRows.1 (List.mem_of_mem_filter hrow)).imp_right And.left
  · rintro row hrow hpipeline txnId htxn hmem
    obtain ⟨txnId', htxnId', heq⟩ := List.mem_map.1 hmem
    rw [Prod.mk.injEq] at heq
    refine List.mem_filter.2 ⟨mem_targetRows.2 ⟨hrow, hpipeline, heq.1.symm⟩, ?_⟩
    rw [decide_eq_true_eq]
    exact ⟨txnId', htxnId', htxn.trans (congrArg some heq.2.symm)⟩

theorem loadTransaction (h : Caches ledger reference recorded batch) (target txnId : String) :
    Caches ledger reference recorded (batch.loadTransaction ledger target txnId) := by
  rw [EventLedgerBatch.loadTransaction]
  split_ifs
  · exact h
  · exact h.loadAmong target [txnId]

theorem prefetchTransactions (h : Caches ledger reference recorded batch)
    (pairs : List (String × Option String)) :
    Caches ledger reference recorded (batch.prefetchTransactions ledger pairs) :=
  List.foldlRecOn _ _ h fun _ hgroup _ _ =>
    List.foldlRecOn _ _ hgroup fun _ hslice _ _ => hslice.loadAmong _ _

theorem loadFor (h : Caches ledger reference recorded batch) (claim : LedgerClaim) :
    Caches ledger reference recorded (batch.loadFor ledger claim) := by
  rw [EventLedgerBatch.loadFor]
  split_ifs
  · exact h.loadTarget claim.targetTable
  · cases claim.identity.txnId with
    | none => exact h
    | some txnId => exact h.loadTransaction claim.targetTable txnId

/-- Loading keeps the pipeline. -/
@[simp] theorem pipeline_loadFor (claim : LedgerClaim) :
    (batch.loadFor ledger claim).pipeline = batch.pipeline := by
  unfold EventLedgerBatch.loadFor EventLedgerBatch.loadTarget EventLedgerBatch.loadTransaction
  split_ifs
  · rfl
  · rfl
  · cases claim.identity.txnId with
    | none => rfl
    | some txnId => dsimp only; split_ifs <;> rfl

theorem mem_loadedTargets_loadTarget (target : String) :
    target ∈ (batch.loadTarget ledger target).loadedTargets := by
  rw [EventLedgerBatch.loadTarget]
  split_ifs with hloaded
  · exact hloaded
  · exact List.mem_cons_self

theorem mem_loadedTransactions_loadTransaction (target txnId : String) :
    (target, txnId) ∈ (batch.loadTransaction ledger target txnId).loadedTransactions := by
  rw [EventLedgerBatch.loadTransaction]
  split_ifs with hloaded
  · exact hloaded
  · exact List.mem_cons_self

/-- After the loading of a claim, a durable row of its event is cached, unless nothing is loaded
for the claim. -/
theorem get?_loadFor (h : Caches ledger reference recorded batch) {claim : LedgerClaim}
    (hread : ledger.readEventLedger batch.pipeline claim.key = some row)
    (htxn : row.identity.txnId = claim.identity.txnId)
    (hloads : ¬(claim.snapshot = false ∧ claim.identity.txnId = none)) :
    (batch.loadFor ledger claim).known.get? claim.key = some row.entry := by
  have hloaded := h.loadFor claim
  rw [← @pipeline_loadFor ledger _ claim] at hread
  by_cases hsnapshot : claim.snapshot = true
  · refine hloaded.targets claim.key row hread ?_
    rw [EventLedgerBatch.loadFor, if_pos hsnapshot]
    exact mem_loadedTargets_loadTarget claim.targetTable
  · obtain ⟨txnId, htxnId⟩ := Option.ne_none_iff_exists'.1 fun hnone =>
      hloads ⟨Bool.eq_false_iff.2 hsnapshot, hnone⟩
    refine hloaded.transactions claim.key row txnId hread (htxn.trans htxnId) ?_
    rw [EventLedgerBatch.loadFor, if_neg hsnapshot, htxnId]
    exact mem_loadedTransactions_loadTransaction claim.targetTable txnId

/-- The row by row ledger holds the durable rows and those of the recorded claims. -/
theorem readEventLedger_reference (h : Caches ledger reference recorded batch)
    (key : String × String) :
    reference.readEventLedger batch.pipeline key =
      (ledger.readEventLedger batch.pipeline key).or
        ((recorded.find? fun claim => claim.key = key).map (LedgerClaim.row batch.pipeline)) := by
  have hkey (claim : LedgerClaim) :
      (claim.row batch.pipeline).key = (batch.pipeline, key) ↔ claim.key = key := by
    rw [LedgerRecord.key, LedgerClaim.row, Prod.mk.injEq]
    exact and_iff_right rfl
  simp only [LedgerTable.readEventLedger, h.rows, h.pending, List.find?_append, List.find?_map,
    Function.comp_def, hkey]

/-- The ledger row by row is left alone by a claim whose event has a row. -/
theorem claimEventLedger_of_some {claim : LedgerClaim}
    (hread : reference.readEventLedger batch.pipeline claim.key = some row) :
    reference.claimEventLedger batch.pipeline claim =
      (answerFrom row.identity row.state claim, reference) := by
  unfold LedgerTable.claimEventLedger
  split
  · rename_i existing hexisting
    rw [Option.some.inj (hexisting.symm.trans hread)]
  · rename_i hnone
    cases hnone.symm.trans hread

theorem claimEventLedger_of_none {claim : LedgerClaim}
    (hread : reference.readEventLedger batch.pipeline claim.key = none) :
    (reference.claimEventLedger batch.pipeline claim).1 = .ok false ∧
      (reference.claimEventLedger batch.pipeline claim).2.rows =
        reference.rows ++ [claim.row batch.pipeline] := by
  unfold LedgerTable.claimEventLedger
  split
  · rename_i existing hexisting
    cases hread.symm.trans hexisting
  · exact ⟨rfl, rfl⟩

/-- Caching a durable row by itself. -/
theorem set_durable (h : Caches ledger reference recorded batch)
    (hread : ledger.readEventLedger batch.pipeline key = some row) :
    Caches ledger reference recorded { batch with known := batch.known.set key row.entry } := by
  have hget {key'} (row') (hread' : ledger.readEventLedger batch.pipeline key' = some row')
      (hknown : batch.known.get? key' = some row'.entry) :
      (batch.known.set key row.entry).get? key' = some row'.entry := by
    rw [Dict.get?_set]
    split_ifs with heq
    · subst heq
      rw [Option.some.inj (hread.symm.trans hread')]
    · exact hknown
  refine ⟨h.pending, h.rows, fun key' row' entry hread' hentry => ?_, fun key' hread' => ?_,
    fun key' row' hread' hmem => hget row' hread' (h.targets key' row' hread' hmem),
    fun key' row' txnId hread' htxn hmem =>
      hget row' hread' (h.transactions key' row' txnId hread' htxn hmem)⟩
  · by_cases heq : key' = key
    · subst heq
      rw [Dict.get?_set_self, Option.some.injEq] at hentry
      rw [← hentry, Option.some.inj (hread.symm.trans hread')]
    · rw [Dict.get?_set_of_ne _ _ heq] at hentry
      exact h.durable key' row' entry hread' hentry
  · have hne : key' ≠ key := by
      rintro rfl
      cases hread.symm.trans hread'
    rw [Dict.get?_set_of_ne _ _ hne]
    exact h.own key' hread'

/-- A cached event is answered from the cache. -/
theorem claim_of_cached {claim : LedgerClaim} {entry : LedgerEntry}
    (h : (batch.loadFor ledger claim).known.get? claim.key = some entry) :
    batch.claim ledger claim =
      (answerFrom entry.identity entry.state claim, batch.loadFor ledger claim) := by
  simp only [EventLedgerBatch.claim, h]

/-- **A claim of an event with a durable row.** -/
theorem claim_of_durable (h : Caches ledger reference recorded batch) {claim : LedgerClaim}
    (hread : ledger.readEventLedger batch.pipeline claim.key = some row)
    (htxn : row.identity.txnId = claim.identity.txnId) :
    (batch.claim ledger claim).1 = answerFrom row.identity row.state claim ∧
      Caches ledger reference recorded (batch.claim ledger claim).2 := by
  have hloaded := h.loadFor claim
  have hread' := hread
  rw [← @pipeline_loadFor ledger _ claim] at hread'
  cases hknown : (batch.loadFor ledger claim).known.get? claim.key with
  | some entry =>
    rw [claim_of_cached hknown, hloaded.durable claim.key row entry hread' hknown]
    exact ⟨rfl, hloaded⟩
  | none =>
    have hloads : claim.snapshot = false ∧ claim.identity.txnId = none := by
      by_contra hloads
      cases (h.get?_loadFor hread htxn hloads).symm.trans hknown
    simp only [EventLedgerBatch.claim, hknown, if_pos hloads, hread']
    exact ⟨trivial, hloaded.set_durable hread'⟩

/-- **A claim of an event that an earlier claim recorded** is answered from that claim. -/
theorem claim_of_recorded (h : Caches ledger reference recorded batch) {claim first : LedgerClaim}
    (hread : ledger.readEventLedger batch.pipeline claim.key = none)
    (hfirst : (recorded.find? fun c => c.key = claim.key) = some first) :
    (batch.claim ledger claim).1 = answerFrom first.identity first.state claim ∧
      Caches ledger reference recorded (batch.claim ledger claim).2 := by
  have hloaded := h.loadFor claim
  have hknown := hloaded.own claim.key (by rwa [pipeline_loadFor])
  rw [hfirst, Option.map_some] at hknown
  rw [claim_of_cached hknown]
  exact ⟨rfl, hloaded⟩

/-- **A claim of a new event** is recorded. -/
theorem claim_of_new (h : Caches ledger reference recorded batch) {claim : LedgerClaim}
    (hread : ledger.readEventLedger batch.pipeline claim.key = none)
    (hfirst : (recorded.find? fun c => c.key = claim.key) = none) :
    (batch.claim ledger claim).1 = .ok false ∧
      Caches ledger (reference.claimEventLedger batch.pipeline claim).2 (recorded ++ [claim])
        (batch.claim ledger claim).2 := by
  have hloaded := h.loadFor claim
  have hread' := hread
  rw [← @pipeline_loadFor ledger _ claim] at hread'
  have hknown := hloaded.own claim.key hread'
  rw [hfirst, Option.map_none] at hknown
  have hclaim : batch.claim ledger claim =
      (.ok false, (batch.loadFor ledger claim).record claim) := by
    simp only [EventLedgerBatch.claim, hknown, hread', ite_self]
  rw [hclaim]
  refine ⟨rfl, ?_⟩
  have hnone : reference.readEventLedger batch.pipeline claim.key = none := by
    rw [h.readEventLedger_reference, hread, hfirst]
    rfl
  have hne {key' row'}
      (hread'' : ledger.readEventLedger (batch.loadFor ledger claim).pipeline key' = some row') :
      key' ≠ claim.key := by
    rintro rfl
    cases hread'.symm.trans hread''
  constructor
  · change (batch.loadFor ledger claim).pending ++ [_] = _
    rw [hloaded.pending, List.map_append]
    rfl
  · rw [(claimEventLedger_of_none hnone).2, hloaded.rows, List.append_assoc]
    simp [EventLedgerBatch.record]
  · intro key' row' entry hread'' hentry
    change (Dict.set _ _ _).get? key' = _ at hentry
    rw [Dict.get?_set_of_ne _ _ (hne hread'')] at hentry
    exact hloaded.durable key' row' entry hread'' hentry
  · intro key' hread''
    change (Dict.set _ _ _).get? key' = _
    rw [Dict.get?_set, List.find?_append]
    split_ifs with heq
    · subst heq
      simp [hfirst]
    · rw [hloaded.own key' hread'']
      simp [Ne.symm heq]
  · intro key' row' hread'' hmem
    change (Dict.set _ _ _).get? key' = _
    rw [Dict.get?_set_of_ne _ _ (hne hread'')]
    exact hloaded.targets key' row' hread'' hmem
  · intro key' row' txnId hread'' htxn hmem
    change (Dict.set _ _ _).get? key' = _
    rw [Dict.get?_set_of_ne _ _ (hne hread'')]
    exact hloaded.transactions key' row' txnId hread'' htxn hmem

/-- The claims recorded so far are the first claims, of `earlier`, of their events. -/
theorem find?_recorded_append {earlier : List LedgerClaim} {claim : LedgerClaim}
    (hearlier : ∀ key, ledger.readEventLedger batch.pipeline key = none →
      (recorded.find? fun c => c.key = key) = earlier.find? fun c => c.key = key)
    (hkey : ledger.readEventLedger batch.pipeline key = none) :
    ((recorded ++ [claim]).find? fun c => c.key = key) =
      (earlier ++ [claim]).find? fun c => c.key = key := by
  rw [List.find?_append, List.find?_append, hearlier key hkey]

/-- **What one claim of the batch answers and keeps**: it answers as the claim row by row exactly
when the first claim of the event, where there is one, was recorded as its own identity. -/
theorem claim (h : Caches ledger reference recorded batch) {earlier : List LedgerClaim}
    (hearlier : ∀ key, ledger.readEventLedger batch.pipeline key = none →
      (recorded.find? fun c => c.key = key) = earlier.find? fun c => c.key = key)
    {claim : LedgerClaim} (hsame : ∀ row,
      ledger.readEventLedger batch.pipeline claim.key = some row →
        row.identity.txnId = claim.identity.txnId) :
    ∃ recorded', Caches ledger (reference.claimEventLedger batch.pipeline claim).2 recorded'
        (batch.claim ledger claim).2 ∧
      (∀ key, ledger.readEventLedger batch.pipeline key = none →
        (recorded'.find? fun c => c.key = key) = (earlier ++ [claim]).find? fun c => c.key = key) ∧
      ((batch.claim ledger claim).1 = (reference.claimEventLedger batch.pipeline claim).1 ↔
        RecordedAsOwn batch.pipeline ledger earlier claim) := by
  have hreference := h.readEventLedger_reference claim.key
  cases hread : ledger.readEventLedger batch.pipeline claim.key with
  | some row =>
    rw [hread, Option.some_or] at hreference
    obtain ⟨hanswer, hcaches⟩ := h.claim_of_durable hread (hsame row hread)
    rw [claimEventLedger_of_some hreference, hanswer]
    refine ⟨recorded, hcaches, fun key hkey => ?_, iff_of_true rfl fun first _ hnone => ?_⟩
    · have hne : claim.key ≠ key := by
        rintro rfl
        cases hread.symm.trans hkey
      rw [hearlier key hkey, List.find?_append]
      simp [hne]
    · cases hread.symm.trans hnone
  | none =>
    rw [hread, Option.none_or] at hreference
    cases hfirst : recorded.find? fun c => c.key = claim.key with
    | none =>
      obtain ⟨hanswer, hcaches⟩ := h.claim_of_new hread hfirst
      rw [hfirst, Option.map_none] at hreference
      rw [hanswer, (claimEventLedger_of_none hreference).1]
      refine ⟨recorded ++ [claim], hcaches, fun key hkey => find?_recorded_append hearlier hkey,
        iff_of_true rfl fun first hsome => ?_⟩
      rw [← hearlier claim.key hread, hfirst] at hsome
      cases hsome
    | some first =>
      obtain ⟨hanswer, hcaches⟩ := h.claim_of_recorded hread hfirst
      rw [hfirst, Option.map_some] at hreference
      rw [claimEventLedger_of_some hreference, hanswer]
      have hearlier_first := (hearlier claim.key hread).symm.trans hfirst
      refine ⟨recorded, hcaches, fun key hkey => ?_, answerFrom_eq_iff.trans ?_⟩
      · rw [hearlier key hkey, List.find?_append]
        by_cases heq : claim.key = key
        · rw [← heq, hearlier_first, Option.some_or]
        · simp [heq]
      · rw [RecordedAsOwn, hearlier_first]
        simp only [Option.some.injEq, forall_eq', forall_prop_of_true hread]

end Caches

/-- The pipeline of a batch never changes. -/
@[simp] theorem EventLedgerBatch.pipeline_claim (batch : EventLedgerBatch) (ledger : LedgerTable)
    (claim : LedgerClaim) : (batch.claim ledger claim).2.pipeline = batch.pipeline := by
  unfold EventLedgerBatch.claim
  dsimp only
  split
  · exact Caches.pipeline_loadFor claim
  · split_ifs
    · split <;> exact Caches.pipeline_loadFor claim
    · exact Caches.pipeline_loadFor claim

@[simp] theorem EventLedgerBatch.pipeline_prefetchTransactions (batch : EventLedgerBatch)
    (ledger : LedgerTable) (pairs : List (String × Option String)) :
    (batch.prefetchTransactions ledger pairs).pipeline = batch.pipeline :=
  List.foldlRecOn (motive := fun batch' : EventLedgerBatch => batch'.pipeline = batch.pipeline) _ _
    rfl fun _ hgroup _ _ => List.foldlRecOn (motive := fun batch' : EventLedgerBatch =>
      batch'.pipeline = batch.pipeline) _ _ hgroup fun _ hslice _ _ => hslice

section Runs

variable {pipeline : String} {ledger reference : LedgerTable} {recorded : List LedgerClaim}
  {batch : EventLedgerBatch}

theorem repeatsOwn_nil (earlier : List LedgerClaim) : RepeatsOwn pipeline ledger earlier [] := by
  intro before claim after h
  simp at h

theorem repeatsOwn_cons {earlier claims : List LedgerClaim} {claim : LedgerClaim} :
    RepeatsOwn pipeline ledger earlier (claim :: claims) ↔
      RecordedAsOwn pipeline ledger earlier claim ∧
        RepeatsOwn pipeline ledger (earlier ++ [claim]) claims := by
  refine ⟨fun h => ⟨?_, fun before repeated after heq => ?_⟩, fun h before repeated after heq => ?_⟩
  · simpa using h [] claim claims rfl
  · simpa using h (claim :: before) repeated after (by rw [heq, List.cons_append])
  · obtain _ | ⟨first, before⟩ := before
    · rw [List.nil_append, List.cons.injEq] at heq
      rw [List.append_nil, ← heq.1]
      exact h.1
    · rw [List.cons_append, List.cons.injEq] at heq
      rw [← heq.1]
      simpa using h.2 before repeated after heq.2

theorem Caches.start (pipeline : String) (ledger : LedgerTable) :
    Caches ledger ledger [] { pipeline } where
  pending := rfl
  rows := (List.append_nil _).symm
  durable _ _ _ _ hentry := nomatch hentry
  own _ _ := rfl
  targets _ _ _ hmem := nomatch hmem
  transactions _ _ _ _ _ hmem := nomatch hmem

/-- **What a run of the batch answers and keeps.** -/
theorem Caches.run (actions : List LedgerAction) {earlier : List LedgerClaim}
    (h : Caches ledger reference recorded batch) (hpipeline : batch.pipeline = pipeline)
    (hearlier : ∀ key, ledger.readEventLedger pipeline key = none →
      (recorded.find? fun c => c.key = key) = earlier.find? fun c => c.key = key)
    (hsame : SameTransactions pipeline ledger (claimsOf actions)) :
    (∃ recorded', Caches ledger (reference.run pipeline (claimsOf actions)).2 recorded'
        (batch.run ledger actions).2) ∧
      ((batch.run ledger actions).1 = (reference.run pipeline (claimsOf actions)).1 ↔
        RepeatsOwn pipeline ledger earlier (claimsOf actions)) := by
  induction actions generalizing batch reference recorded earlier with
  | nil => exact ⟨⟨recorded, h⟩, iff_of_true rfl (repeatsOwn_nil earlier)⟩
  | cons action actions ih =>
    cases action with
    | prefetch pairs =>
      exact ih (h.prefetchTransactions pairs) (by rwa [batch.pipeline_prefetchTransactions])
        hearlier hsame
    | claim claim =>
      subst hpipeline
      obtain ⟨recorded', hcaches, hrecorded, hanswer⟩ :=
        h.claim hearlier (hsame claim List.mem_cons_self)
      obtain ⟨hend, hrest⟩ := ih hcaches (batch.pipeline_claim ledger claim) hrecorded
        fun claim' hmem => hsame claim' (List.mem_cons_of_mem _ hmem)
      refine ⟨hend, ?_⟩
      rw [show claimsOf (.claim claim :: actions) = claim :: claimsOf actions from rfl,
        repeatsOwn_cons, ← hanswer, ← hrest]
      exact List.cons.injEq _ _ _ _ ▸ Iff.rfl

/-- The flush leaves the ledger that the claims row by row leave. -/
theorem Caches.flush (h : Caches ledger reference recorded batch) :
    batch.flush ledger = .ok reference := by
  rw [EventLedgerBatch.flush]
  split_ifs with hpending
  · refine congrArg Except.ok (LedgerTable.ext ?_)
    rw [h.rows, hpending, List.append_nil]
  · rw [LedgerTable.bulkInsert, dif_pos (h.rows ▸ reference.primaryKey)]
    exact congrArg Except.ok (LedgerTable.ext h.rows.symm)

end Runs

/-- Claims with the source LSN of their identity, as the planner makes them. -/
theorem repeatsOwn_of_sourceLsn {pipeline : String} {ledger : LedgerTable}
    {earlier claims : List LedgerClaim}
    (h : ∀ claim ∈ earlier ++ claims, claim.sourceLsn = claim.identity.sourceLsn) :
    RepeatsOwn pipeline ledger earlier claims := by
  rintro before claim after rfl first hfirst - -
  refine h first ?_
  rw [← List.append_assoc]
  exact List.mem_append_left _ (List.mem_of_find?_eq_some hfirst)

/-- **When the batch answers and inserts as the claims row by row do**: exactly when no claim
repeats an event that a claim before it recorded with another source LSN than its identity's,
unless the two identities differ in a column checked before the source LSN. -/
theorem batchMatches_iff {pipeline : String} {ledger : LedgerTable} {actions : List LedgerAction}
    (h : SameTransactions pipeline ledger (claimsOf actions)) :
    BatchMatches pipeline ledger actions ↔
      RepeatsOwn pipeline ledger [] (claimsOf actions) := by
  obtain ⟨⟨recorded, hcaches⟩, hanswers⟩ :=
    (Caches.start pipeline ledger).run actions rfl (fun _ _ => rfl) h
  rw [BatchMatches, hanswers]
  exact and_iff_left hcaches.flush

namespace Accounts

/-- The event of an update of transaction 7. -/
def updateIdentity : EventIdentity where
  eventId := "00000064:1"
  txnId := some "7"
  commitLsn := some 120
  sourceLsn := some 100
  operation := some .update
  payloadDigest := "9f86d081"

/-- The row of an event of the transaction before it. -/
def durableRecord : LedgerRecord where
  pipeline := "orders"
  targetTable := "app_accounts"
  identity := { updateIdentity with eventId := "0000005a:1", txnId := some "6" }
  state := "internal"
  appliedAt := 3

def durableLedger : LedgerTable := ⟨[durableRecord], List.nodup_singleton _⟩

/-- A prefetch, a replay of the durable event, and an event claimed twice. -/
def updateActions : List LedgerAction :=
  [.prefetch [("app_accounts", some "7"), ("app_accounts", none)],
    .claim
      { identity := durableRecord.identity, targetTable := "app_accounts", sourceLsn := some 100 },
    .claim { identity := updateIdentity, targetTable := "app_accounts", sourceLsn := some 100 },
    .claim { identity := updateIdentity, targetTable := "app_accounts", sourceLsn := some 100 }]

theorem batchMatches_updateActions : BatchMatches "orders" durableLedger updateActions := by
  refine (batchMatches_iff ?_).2 (repeatsOwn_of_sourceLsn ?_)
  · unfold SameTransactions
    decide
  · decide

/-- The event claimed twice, each time without a source LSN beside its identity. -/
def unplacedActions : List LedgerAction :=
  [.claim { identity := updateIdentity, targetTable := "app_accounts" },
    .claim { identity := updateIdentity, targetTable := "app_accounts" }]

/-- The batch answers the second claim as a replay, and the ledger row by row as a collision. -/
theorem not_batchMatches_unplacedActions :
    SameTransactions "orders" durableLedger (claimsOf unplacedActions) ∧
      ¬BatchMatches "orders" durableLedger unplacedActions := by
  constructor
  · unfold SameTransactions
    decide
  · intro h
    exact absurd h.1 (by decide)

end Accounts

end CdcFlight
