import CdcFlight.Envelope
import CdcFlight.Lib.Run

/-!
# Event identities and the shared ledger

`event_ledger.EventIdentity` with the collision check of `assert_same_identity`, and the claim of
`destination.claim_event_ledger` on the connection of the data transaction. A claim finds the row
of the same pipeline, target and event identity: an equal identity is a replay, a different one a
collision, and no row at all is a first application.

Digests are the hexadecimal texts the identity carries.

## Main definitions

* `CdcFlight.EventIdentity`: the source facts that make an event an event.
* `CdcFlight.assertSameIdentity`: the fields compared on a replay.
* `CdcFlight.claimEventLedger`: the durable claim.

## Main results

* `CdcFlight.claimEventLedger_cases`: a claim that returns is a replay that changes nothing or
  the first application, which adds one row.
-/

namespace CdcFlight

/-- `event_ledger.EventIdentity`. -/
structure EventIdentity where
  eventId : String
  sourceSchema : Option String := none
  sourceTable : Option String := none
  sourceClusterId : Option String := none
  sourceTimeline : Option ℤ := none
  relationGeneration : Option String := none
  txnId : Option String := none
  commitLsn : Option ℕ := none
  sourceLsn : Option ℕ := none
  totalOrder : Option ℤ := none
  operation : Option Op := none
  payloadDigest : String := ""
  keyGuardDigest : Option String := none
  policyEpoch : ℕ := 0
  snapshotEpoch : Option ℕ := none
  policyDigest : Option String := none
  deleteMode : Option DeleteMode := none
  strong : Bool := false
deriving DecidableEq, Repr

/-- The `state` column of the ledger. -/
inductive LedgerState
  | applied
  | internal
  | replayed
deriving DecidableEq, Repr

/-- A row of `event_ledger`: the key columns, and the recorded identity with the source LSN the
caller gave. -/
structure LedgerRow where
  pipeline : String
  targetTable : String
  identity : EventIdentity
  state : LedgerState := .applied
deriving DecidableEq, Repr

/-- `DestinationIdentityCollision` of the ledger, with the first field that differs. -/
structure IdentityCollision where
  field : String
  eventId : String
  target : String
  sourceSchema : Option String := none
  sourceTable : Option String := none
deriving DecidableEq, Repr

/-- The comparisons of `assert_same_identity`, in its order. -/
def identityChecks (existing identity : EventIdentity) : List (String × Bool) :=
  [("operation", existing.operation = identity.operation),
    ("payload_digest", existing.payloadDigest = identity.payloadDigest),
    ("source_schema", existing.sourceSchema = identity.sourceSchema),
    ("source_table", existing.sourceTable = identity.sourceTable),
    ("source_cluster_id", existing.sourceClusterId = identity.sourceClusterId),
    ("source_timeline", existing.sourceTimeline = identity.sourceTimeline),
    ("relation_generation", existing.relationGeneration = identity.relationGeneration),
    ("txn_id", existing.txnId = identity.txnId),
    ("commit_lsn", existing.commitLsn = identity.commitLsn),
    ("source_lsn", existing.sourceLsn = identity.sourceLsn),
    ("total_order", existing.totalOrder = identity.totalOrder),
    ("key_guard_digest", existing.keyGuardDigest = identity.keyGuardDigest),
    ("policy_epoch", existing.policyEpoch = identity.policyEpoch),
    ("snapshot_epoch", existing.snapshotEpoch = identity.snapshotEpoch),
    ("policy_digest", existing.policyDigest = identity.policyDigest),
    ("delete_mode", existing.deleteMode = identity.deleteMode)]

/-- `assert_same_identity`. -/
def assertSameIdentity (existing identity : EventIdentity) (target : String) :
    Except IdentityCollision Unit :=
  match (identityChecks existing identity).find? (!·.2) with
  | some check => .error
      { field := check.1, eventId := identity.eventId, target := target
        sourceSchema := identity.sourceSchema, sourceTable := identity.sourceTable }
  | none => .ok ()

@[simp] theorem assertSameIdentity_self (identity : EventIdentity) (target : String) :
    assertSameIdentity identity identity target = .ok () := by
  simp [assertSameIdentity, identityChecks]

/-- Every fact that `assert_same_identity` compares is equal; the event id is the lookup key. -/
structure EventIdentity.SameFacts (existing identity : EventIdentity) : Prop where
  operation : existing.operation = identity.operation
  payloadDigest : existing.payloadDigest = identity.payloadDigest
  sourceSchema : existing.sourceSchema = identity.sourceSchema
  sourceTable : existing.sourceTable = identity.sourceTable
  sourceClusterId : existing.sourceClusterId = identity.sourceClusterId
  sourceTimeline : existing.sourceTimeline = identity.sourceTimeline
  relationGeneration : existing.relationGeneration = identity.relationGeneration
  txnId : existing.txnId = identity.txnId
  commitLsn : existing.commitLsn = identity.commitLsn
  sourceLsn : existing.sourceLsn = identity.sourceLsn
  totalOrder : existing.totalOrder = identity.totalOrder
  keyGuardDigest : existing.keyGuardDigest = identity.keyGuardDigest
  policyEpoch : existing.policyEpoch = identity.policyEpoch
  snapshotEpoch : existing.snapshotEpoch = identity.snapshotEpoch
  policyDigest : existing.policyDigest = identity.policyDigest
  deleteMode : existing.deleteMode = identity.deleteMode

theorem EventIdentity.SameFacts.trans {a b c : EventIdentity} (h : a.SameFacts b)
    (h' : b.SameFacts c) : a.SameFacts c where
  operation := h.operation.trans h'.operation
  payloadDigest := h.payloadDigest.trans h'.payloadDigest
  sourceSchema := h.sourceSchema.trans h'.sourceSchema
  sourceTable := h.sourceTable.trans h'.sourceTable
  sourceClusterId := h.sourceClusterId.trans h'.sourceClusterId
  sourceTimeline := h.sourceTimeline.trans h'.sourceTimeline
  relationGeneration := h.relationGeneration.trans h'.relationGeneration
  txnId := h.txnId.trans h'.txnId
  commitLsn := h.commitLsn.trans h'.commitLsn
  sourceLsn := h.sourceLsn.trans h'.sourceLsn
  totalOrder := h.totalOrder.trans h'.totalOrder
  keyGuardDigest := h.keyGuardDigest.trans h'.keyGuardDigest
  policyEpoch := h.policyEpoch.trans h'.policyEpoch
  snapshotEpoch := h.snapshotEpoch.trans h'.snapshotEpoch
  policyDigest := h.policyDigest.trans h'.policyDigest
  deleteMode := h.deleteMode.trans h'.deleteMode

/-- `read_event_ledger`: the row of a pipeline, target and event identity. -/
def readEventLedger (ledger : List LedgerRow) (pipeline targetTable eventId : String) :
    Option LedgerRow :=
  ledger.find? fun row =>
    row.pipeline = pipeline ∧ row.targetTable = targetTable ∧ row.identity.eventId = eventId

/-- `destination.claim_event_ledger` on the open connection: whether the exact event was already
applied, and the ledger afterwards. Every stored state counts as applied. -/
def claimEventLedger (ledger : List LedgerRow) (identity : EventIdentity)
    (pipeline targetTable : String) (sourceLsn : Option ℕ) (state : LedgerState := .applied) :
    Except IdentityCollision (Bool × List LedgerRow) :=
  match readEventLedger ledger pipeline targetTable identity.eventId with
  | some existing => do
    assertSameIdentity existing.identity identity targetTable
    return (true, ledger)
  | none => .ok (false, ledger ++
      [{ pipeline, targetTable, identity := { identity with sourceLsn }, state }])

/-- The event identity is not in the ledger of the target: no earlier claim of it was recorded, so
the next one is the first. -/
def Unclaimed (ledger : List LedgerRow) (pipeline targetTable eventId : String) : Prop :=
  readEventLedger ledger pipeline targetTable eventId = none

instance (ledger : List LedgerRow) (pipeline targetTable eventId : String) :
    Decidable (Unclaimed ledger pipeline targetTable eventId) :=
  inferInstanceAs (Decidable (_ = _))

theorem unclaimed_iff {ledger : List LedgerRow} {pipeline targetTable eventId : String} :
    Unclaimed ledger pipeline targetTable eventId ↔ ∀ row ∈ ledger,
      ¬ (row.pipeline = pipeline ∧ row.targetTable = targetTable ∧
        row.identity.eventId = eventId) := by
  simp [Unclaimed, readEventLedger]

/-- The ledger after one more row. -/
theorem readEventLedger_append {ledger : List LedgerRow} {pipeline targetTable eventId : String}
    {row : LedgerRow} : readEventLedger (ledger ++ [row]) pipeline targetTable eventId =
      (readEventLedger ledger pipeline targetTable eventId).or
        (if row.pipeline = pipeline ∧ row.targetTable = targetTable ∧
          row.identity.eventId = eventId then some row else none) := by
  rw [readEventLedger, List.find?_append, List.find?_singleton]
  simp only [decide_eq_true_eq]
  rfl

/-- **What a claim does.** A claim that returns either found the identity, and changed nothing,
or recorded it. -/
theorem claimEventLedger_cases {ledger ledger' : List LedgerRow} {identity : EventIdentity}
    {pipeline targetTable : String} {sourceLsn : Option ℕ} {state : LedgerState} {replayed : Bool}
    (h : claimEventLedger ledger identity pipeline targetTable sourceLsn state =
      .ok (replayed, ledger')) :
    (∃ existing ∈ ledger, existing.pipeline = pipeline ∧ existing.targetTable = targetTable ∧
        existing.identity.eventId = identity.eventId ∧
        assertSameIdentity existing.identity identity targetTable = .ok () ∧
        replayed = true ∧ ledger' = ledger) ∨
      (Unclaimed ledger pipeline targetTable identity.eventId ∧ replayed = false ∧
        ledger' = ledger ++
          [{ pipeline, targetTable, identity := { identity with sourceLsn }, state }]) := by
  rw [claimEventLedger] at h
  cases hread : readEventLedger ledger pipeline targetTable identity.eventId with
  | none =>
    rw [hread] at h
    simp only [Except.ok.injEq, Prod.mk.injEq] at h
    exact Or.inr ⟨hread, h.1.symm, h.2.symm⟩
  | some existing =>
    rw [hread] at h
    obtain ⟨_, hsame, h⟩ := Lib.except_bind_eq_ok.1 h
    rw [Lib.except_pure_eq_ok, Prod.mk.injEq] at h
    have hfound := List.find?_some hread
    simp only [decide_eq_true_eq] at hfound
    exact Or.inl ⟨existing, List.mem_of_find?_eq_some hread, hfound.1, hfound.2.1, hfound.2.2,
      hsame, h.1.symm, h.2.symm⟩

/-- A recorded event is found again. -/
theorem claimEventLedger_replay {ledger : List LedgerRow} {identity : EventIdentity}
    {pipeline targetTable : String} {sourceLsn : Option ℕ} {state : LedgerState}
    {existing : LedgerRow}
    (h : readEventLedger ledger pipeline targetTable identity.eventId = some existing)
    (hsame : assertSameIdentity existing.identity identity targetTable = .ok ()) :
    claimEventLedger ledger identity pipeline targetTable sourceLsn state =
      .ok (true, ledger) := by
  rw [claimEventLedger, h]
  simp only [hsame]
  rfl

end CdcFlight
