import CdcFlight.Assembler.Units
import CdcFlight.Scd2.Token

/-!
# How event identities are built

`event_ledger.identity_for` and `event_ledger.message_identity_for`, the snapshot identities of
`SnapshotCoordinator.event_id`, the relation generation of `event_ledger.relation_generation_for`,
and the choice `planner._collect` makes among them for the claim of an event.

The digests are parameters. A lineage fact that the planner passes goes before the one the event
carries.

## Main definitions

* `CdcFlight.identityFor`, `CdcFlight.messageIdentityFor`, `CdcFlight.snapshotEventId`.
* `CdcFlight.relationGenerationFor`, over a `CdcFlight.CatalogView`.
* `CdcFlight.ledgerIdentity`: the identity an event is claimed under.
-/

namespace CdcFlight

open Lib

variable {C V : Type}

/-- The digests of an event that its identity carries. -/
structure Digests (C V : Type) where
  payload : PendingRecord C V → String
  keyGuard : Image C V → String

/-- What the planner passes beside the event. -/
structure IdentityScope where
  sourceClusterId : Option String := none
  sourceTimeline : Option ℤ := none
  relationGeneration : Option String := none
  commitLsn : Option ℕ := none
  requireStrong : Bool := false

/-- The raises of the identity functions: `ResumePointDrift` for a snapshot row without an identity
of its own, `ValueError` for an incremental one, else `DestinationIdentityCollision`. -/
inductive IdentityError
  | missingFacts (sourceSchema sourceTable : Option String)
  | transactionalMessageMissing (facts : List String)
  | messageWithoutCursor
  | messageWithoutLineage
  | incrementalWithoutIdentity (table : Option String)
  | snapshotWithoutOrdinal (schema table : Option String)
deriving DecidableEq, Repr

/-- `int()` of a value, with `None` where it raises. -/
def PyInt.toInt? : PyInt → Option ℤ
  | .int n => some n
  | .unparsable => none

/-- The ordinal of an event in its transaction. -/
def PendingRecord.order (event : PendingRecord C V) : Option ℤ :=
  event.totalOrder.bind PyInt.toInt?

/-- The prefix of snapshot identities. -/
def startsWithSnap (eventId : Option String) : Bool :=
  "snap:".toList.isPrefixOf ((eventId.getD "").toList)

/-- The epoch a snapshot identity is recorded with: the number after `snap:`, else 0. -/
def snapshotEpochOf (stableId : String) : ℕ :=
  match stableId.toList.splitOn ':' with
  | head :: epoch :: _ => if head = "snap".toList then (String.ofList epoch).toNat?.getD 0 else 0
  | _ => 0

/-- The lineage facts of an event, as `identity_for` resolves them. -/
structure SourceLineage where
  cluster : Option String
  timeline : Option ℤ
  generation : Option String
  txnId : Option String
  commitLsn : Option ℕ
  order : Option ℤ

/-- The lineage of an event under a scope. -/
def lineageOf (scope : IdentityScope) (event : PendingRecord C V) : SourceLineage where
  cluster := scope.sourceClusterId.or event.sourceClusterId
  timeline := scope.sourceTimeline.or event.sourceTimeline
  generation := scope.relationGeneration.or event.relationGeneration
  txnId := event.txnId
  commitLsn := scope.commitLsn.or event.commitLsn
  order := event.order

/-- `strong`, with the `v2` identity of the facts. -/
def SourceLineage.strongId? (l : SourceLineage) : Option String :=
  match l.cluster, l.timeline, l.generation, l.txnId, l.commitLsn, l.order with
  | some cluster, some timeline, some generation, some txnId, some commitLsn, some order =>
    if cluster ≠ "" ∧ generation ≠ "" ∧ txnId ≠ "" then
      some (streamEventId cluster timeline generation txnId commitLsn order)
    else none
  | _, _, _, _, _, _ => none

/-- `str()` of an optional number. -/
def pyStrOf {α : Type} [ToString α] : Option α → String
  | none => "None"
  | some a => toString a

/-- The spelling kept for callers without lineage facts. -/
def compatibilityId (event : PendingRecord C V) : String :=
  pyStrOf event.lsn ++ ":" ++ pyStrOf event.txnId ++ ":" ++ pyStrOf event.order

/-- The identity a snapshot row is given by its caller, or carries itself. -/
def snapshotIdOf (event : PendingRecord C V) (eventId : Option String) : Option String :=
  match event.snapshotIdentity with
  | some id => some id
  | none => if event.incremental || event.snapshot.isSome || startsWithSnap eventId then eventId
    else none

/-- `event_ledger.identity_for`. -/
def identityFor (digests : Digests C V) (scope : IdentityScope) (event : PendingRecord C V)
    (eventId : Option String) : Except IdentityError EventIdentity :=
  let snapshotId := snapshotIdOf event eventId
  let lineage := lineageOf scope event
  let stableId := if truthy snapshotId then snapshotId else eventId
  if scope.requireStrong && !(lineage.strongId?.isSome || truthy snapshotId) then
    .error (.missingFacts event.schema event.table)
  else .ok
    { eventId := stableId.getD (lineage.strongId?.getD (compatibilityId event))
      sourceSchema := event.schema
      sourceTable := event.table
      sourceClusterId := lineage.cluster
      sourceTimeline := lineage.timeline
      relationGeneration := lineage.generation
      txnId := lineage.txnId
      commitLsn := lineage.commitLsn
      sourceLsn := event.lsn
      totalOrder := lineage.order
      operation := event.op
      payloadDigest := digests.payload event
      keyGuardDigest := event.key.map digests.keyGuard
      policyEpoch := event.policyEpoch
      snapshotEpoch := if truthy snapshotId then
          some (if event.incremental then 0 else snapshotEpochOf (snapshotId.getD ""))
        else none
      policyDigest := event.policyDigest
      deleteMode := event.deleteMode
      strong := lineage.strongId?.isSome }

/-- Whether a message belongs to a transaction. -/
def PendingRecord.isTransactional (event : PendingRecord C V) : Bool :=
  event.messageTransactional.getD (event.txnId.isSome || event.order.isSome)

/-- `".".join`. -/
def dotted (parts : List String) : String := (String.singleton '.').intercalate parts

/-- The source position of a message: its own, else that of its commit. -/
def messageCursor (scope : IdentityScope) (event : PendingRecord C V) : Option ℕ :=
  event.lsn.or (scope.commitLsn.or event.commitLsn)

/-- The facts a transactional message misses, by name. -/
def missingMessageFacts (lineage : SourceLineage) (cursor : Option ℕ) : List String :=
  ([("cluster", !truthy lineage.cluster), ("timeline", lineage.timeline.isNone),
    ("transaction id", !truthy lineage.txnId), ("total order", lineage.order.isNone),
    ("source LSN", cursor.isNone)].filter (·.2)).map (·.1)

/-- The identity of a message with complete facts. -/
def messageId (lineage : SourceLineage) (transactional : Bool) (cursor : Option ℕ)
    (sequence : Option String) : String :=
  dotted (["message-v1", component (lineage.cluster.getD ""), pyStrOf lineage.timeline] ++
    if transactional then
      ["tx", component (lineage.txnId.getD ""), pyStrOf lineage.order, pyStrOf cursor]
    else match cursor with
      | some position => ["lsn", toString position]
      | none => ["sequence", component (sequence.getD "")])

/-- `event_ledger.message_identity_for`. Past its checks the facts are complete, so that the
unscoped spelling at its end is never used. -/
def messageIdentityFor (digests : Digests C V) (scope : IdentityScope)
    (event : PendingRecord C V) (eventId : Option String) : Except IdentityError EventIdentity :=
  let lineage := lineageOf scope event
  let cursor := messageCursor scope event
  let transactional := event.isTransactional
  let identity : EventIdentity :=
    { eventId := eventId.getD (messageId lineage transactional cursor event.sourceSequence)
      sourceClusterId := lineage.cluster
      sourceTimeline := lineage.timeline
      txnId := lineage.txnId
      commitLsn := lineage.commitLsn
      sourceLsn := event.lsn
      totalOrder := lineage.order
      operation := some .message
      payloadDigest := digests.payload event
      policyEpoch := event.policyEpoch
      policyDigest := event.policyDigest
      strong := true }
  if transactional then
    if missingMessageFacts lineage cursor ≠ [] then
      .error (.transactionalMessageMissing (missingMessageFacts lineage cursor))
    else .ok identity
  else if cursor.isNone && !truthy event.sourceSequence then .error .messageWithoutCursor
  else if !truthy lineage.cluster || lineage.timeline.isNone then .error .messageWithoutLineage
  else .ok identity

/-! ### Snapshot rows -/

/-- `SnapshotCoordinator.event_id`. -/
def snapshotEventId (epoch : ℕ) (event : PendingRecord C V) : Except IdentityError String :=
  if event.incremental then
    if truthy event.snapshotIdentity then .ok (event.snapshotIdentity.getD "")
    else .error (.incrementalWithoutIdentity event.qualifiedTable)
  else match event.snapshotOrdinal with
    | none => .error (.snapshotWithoutOrdinal event.schema event.table)
    | some ordinal => .ok ("snap:" ++ toString epoch ++ ":" ++ pyStr event.schema ++ "." ++
        pyStr event.table ++ ":" ++ toString ordinal)

/-! ### Relation generations -/

/-- The physical identity of a relation in the catalog. -/
structure RelationTuple where
  oid : ℕ
  relfilenode : Option ℕ
  typeOid : Option ℕ
deriving DecidableEq, Repr

/-- A number, or nothing. -/
def optionalNumber : Option ℕ → String
  | none => ""
  | some n => toString n

/-- `relation_generation_from_relation`. -/
def RelationTuple.generation (relation : RelationTuple) : String :=
  toString relation.oid ++ ":" ++ optionalNumber relation.relfilenode ++ ":" ++
    optionalNumber relation.typeOid

/-- The catalog facts at hand when a group is planned: those of the descriptor provider, those the
live watcher knows, and the rows of `source_relations` for the pipeline, by schema and table. -/
structure CatalogView where
  provided : String → Option RelationTuple := fun _ => none
  known : String → Option RelationTuple := fun _ => none
  recorded : String → String → Option RelationTuple := fun _ _ => none

/-- The recorded row of a qualified name, split at its first point. -/
def CatalogView.recordedFor (view : CatalogView) (qualified : String) : Option RelationTuple :=
  match qualified.toList.dropWhile (· ≠ '.') with
  | [] => none
  | _ :: table => view.recorded (String.ofList (qualified.toList.takeWhile (· ≠ '.')))
      (String.ofList table)

/-- The relation the catalog facts name, the provider first, then the watcher, then the table. -/
def CatalogView.relationFor (view : CatalogView) (qualified : String) : Option RelationTuple :=
  ((view.provided qualified).or (view.known qualified)).or (view.recordedFor qualified)

/-- `event_ledger.relation_generation_for`. -/
def relationGenerationFor (view : CatalogView) (event : PendingRecord C V) : Option String :=
  match event.relationGeneration with
  | some generation => some generation
  | none =>
    if truthy event.qualifiedTable then
      (view.relationFor (event.qualifiedTable.getD "")).map RelationTuple.generation
    else none

/-! ### The claim -/

/-- `planner.stream_event_id` as `_collect` and `stage_events` call it, without lineage facts. -/
def streamEventIdFor (digests : Digests C V) (event : PendingRecord C V) :
    Except IdentityError String :=
  if event.incremental then
    if truthy event.snapshotIdentity then .ok (event.snapshotIdentity.getD "")
    else .error (.incrementalWithoutIdentity event.qualifiedTable)
  else (identityFor digests {} event none).map EventIdentity.eventId

/-- The identity `_collect` and `_collect_message` claim an event under. The scope is the planner's
own, with the commit position of the unit; `staged` is the identity the event was staged with, if
it was, and `epoch` that of the snapshot the event belongs to, if it is a snapshot row. -/
def ledgerIdentity (digests : Digests C V) (scope : IdentityScope) (view : CatalogView)
    (epoch : Option ℕ) (staged : Option String) (event : PendingRecord C V) :
    Except IdentityError EventIdentity :=
  if event.kind = .message then messageIdentityFor digests scope event staged
  else do
    let scope := { scope with relationGeneration := relationGenerationFor view event }
    let eventId ← match staged, epoch with
      | some id, _ => .ok id
      | none, some epoch => snapshotEventId epoch event
      | none, none => streamEventIdFor digests event
    identityFor digests scope event
      (if epoch.isSome || event.incremental then some eventId else none)

/-! ### Streamed rows -/

section Streamed

variable (digests : Digests C V) {scope : IdentityScope} {view : CatalogView}
  {event : PendingRecord C V}

/-- Without an identity of a snapshot, an event with complete facts is identified by them. -/
theorem identityFor_of_strong {id : String} (hidentity : event.snapshotIdentity = none)
    (hstrong : (lineageOf scope event).strongId? = some id) :
    ∃ identity, identityFor digests scope event none = .ok identity ∧ identity.eventId = id ∧
      identity.strong = true := by
  have hsnapshot : snapshotIdOf event none = none := by
    simp [snapshotIdOf, hidentity]
  rw [identityFor]
  simp only [hsnapshot, hstrong, Option.isSome_some, Bool.true_or, Bool.not_true, Bool.and_false]
  exact ⟨_, rfl, rfl, rfl⟩

/-- A streamed row is claimed under its lineage, whether it was staged or not. -/
theorem ledgerIdentity_of_streamed (hkind : event.kind ≠ .message)
    (hincremental : event.incremental = false) (staged : Option String) :
    ledgerIdentity digests scope view none staged event = identityFor digests
      { scope with relationGeneration := relationGenerationFor view event } event none := by
  rw [ledgerIdentity, if_neg hkind]
  cases staged with
  | some id => simp [hincremental, bind, Except.bind]
  | none =>
    have hid : ∃ id, streamEventIdFor digests event = .ok id := by
      rw [streamEventIdFor, hincremental]
      exact ⟨_, rfl⟩
    obtain ⟨id, hid⟩ := hid
    simp [hincremental, hid, bind, Except.bind]

variable (scope) in
/-- An event given the identity of a snapshot row has it. -/
theorem identityFor_of_snapshot {id : String} (hidentity : event.snapshotIdentity = none)
    (hsnap : startsWithSnap (some id) = true) :
    ∃ identity, identityFor digests scope event (some id) = .ok identity ∧
      identity.eventId = id := by
  have hsnapshot : snapshotIdOf event (some id) = some id := by
    simp [snapshotIdOf, hidentity, hsnap]
  have htruthy : truthy (some id) = true := by
    by_contra h
    have hid : id = "" := by simpa [truthy] using h
    rw [hid] at hsnap
    exact absurd hsnap (by decide)
  rw [identityFor]
  simp only [hsnapshot, htruthy, Bool.or_true, Bool.not_true, Bool.and_false]
  exact ⟨_, rfl, rfl⟩

end Streamed

/-! ### Messages with complete facts -/

section Messages

variable (digests : Digests C V) {scope : IdentityScope} {event : PendingRecord C V}

theorem messageIdentityFor_of_transactional (h : event.isTransactional = true)
    (hmissing : missingMessageFacts (lineageOf scope event) (messageCursor scope event) = []) :
    ∃ identity, messageIdentityFor digests scope event none = .ok identity ∧ identity.eventId =
      messageId (lineageOf scope event) true (messageCursor scope event) event.sourceSequence := by
  rw [messageIdentityFor]
  simp only [h, if_true, hmissing, ne_eq, not_true, if_false]
  exact ⟨_, rfl, rfl⟩

theorem messageIdentityFor_of_positioned (h : event.isTransactional = false)
    (hcursor : (messageCursor scope event).isSome = true ∨ truthy event.sourceSequence = true)
    (hcluster : truthy (lineageOf scope event).cluster = true)
    (htimeline : (lineageOf scope event).timeline.isSome = true) :
    ∃ identity, messageIdentityFor digests scope event none = .ok identity ∧ identity.eventId =
      messageId (lineageOf scope event) false (messageCursor scope event)
        event.sourceSequence := by
  have hpositioned : ((messageCursor scope event).isNone && !truthy event.sourceSequence) =
      false := by
    rcases hcursor with hc | hs
    · simp [Option.isNone_eq_false_iff.2 hc]
    · simp [hs]
  have hlineage : (!truthy (lineageOf scope event).cluster ||
      (lineageOf scope event).timeline.isNone) = false := by
    simp [hcluster, Option.isNone_eq_false_iff.2 htimeline]
  rw [messageIdentityFor]
  simp only [h, hpositioned, hlineage, Bool.false_eq_true, if_false]
  exact ⟨_, rfl, rfl⟩

end Messages

end CdcFlight
