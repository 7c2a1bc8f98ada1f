import CdcFlight.Catalog.Changes
import CdcFlight.Lib.Dict
import CdcFlight.Lib.Journal

/-!
# The partition topology watcher

`_compare_partitions` of `catalog_lifecycle.py` and what else happens to partition changes. The
watcher holds a stable snapshot of the partition edges. An observation of the complete topology is
compared with it edge by edge; a transition is confirmed over several observations, and the snapshot
moves only when all transitions that wait are confirmed in the same observation.

Relations are known by their qualified names. What an edge carries beside its key and the facts that
make it complete (publication facts, positions) is of an arbitrary type. `repr` of a key, by which
the differences are sorted, is an arbitrary order. Partition changes are kept in a queue of their
own: no operation of this module touches the changes of other kinds.

## Main definitions

* `CdcFlight.PartitionEdge`, `CdcFlight.TopologyObservation`: what is observed.
* `CdcFlight.PartitionWatch.compare`: one observation.
* `CdcFlight.PartitionWatch.due`, `CdcFlight.PartitionWatch.settle`: what the applier does.
-/

namespace CdcFlight

open Lib

/-! ### Observations -/

/-- `relation_generation`: oid, relfilenode and type oid. -/
structure Generation where
  oid : Option ℤ := none
  relfilenode : Option ℤ := none
  typeOid : Option ℤ := none
deriving DecidableEq, Repr

/-- `PartitionEdge.edge_key`. -/
structure EdgeKey where
  parent : String
  parentGeneration : Generation
  child : String
  childGeneration : Generation
  attachmentEpoch : Option String
  attachmentSequence : Option ℤ
deriving DecidableEq, Repr

/-- `PartitionEdge`. -/
structure PartitionEdge (F : Type) where
  key : EdgeKey
  bound : Option String
  attachmentState : Option String
  facts : F
deriving DecidableEq

/-- No part of the generation is missing, and the oid is positive. -/
def Generation.complete (g : Generation) : Bool :=
  g.oid.any (0 < ·) && g.relfilenode.isSome && g.typeOid.isSome

/-- `PartitionEdge.complete`. -/
def PartitionEdge.complete {F : Type} (edge : PartitionEdge F) : Bool :=
  edge.key.parentGeneration.complete && edge.key.childGeneration.complete &&
    edge.bound.isSome && edge.attachmentState = some "attached" &&
    edge.key.attachmentEpoch.any (· ≠ "") && edge.key.attachmentSequence.isSome

/-- `PartitionTopologyObservation`. -/
structure TopologyObservation (F : Type) where
  edges : List (PartitionEdge F) := []
  complete : Bool := false
  detectionLsn : ℕ := 0
  observationEpoch : ℕ := 0
  reason : Option String := none

/-- `PartitionTopologyObservation.usable`. -/
def TopologyObservation.usable {F : Type} (observation : TopologyObservation F) : Bool :=
  observation.complete && 0 < observation.detectionLsn &&
    observation.edges.all PartitionEdge.complete

/-- The edges by their keys. -/
abbrev Topology (F : Type) := Dict EdgeKey (PartitionEdge F)

/-- The relations of the complete relation observation, with their generations. -/
abbrev ObservedRelations := Dict String Generation

variable {F : Type}

/-- The edges of an observation, each against the relations; or why the observation is rejected. -/
def readEdges (observed : ObservedRelations) :
    List (PartitionEdge F) → Topology F → Except String (Topology F)
  | [], current => .ok current
  | edge :: edges, current =>
    if current.contains edge.key then
      .error "partition catalog returned a duplicate edge key"
    else match observed.get? edge.key.parent, observed.get? edge.key.child with
      | some parent, some child =>
        if parent ≠ edge.key.parentGeneration then
          .error "partition parent generation did not agree"
        else if child ≠ edge.key.childGeneration then
          .error "partition child generation did not agree"
        else readEdges observed edges (current.set edge.key edge)
      | _, _ => .error ("partition edge was not backed by a visible parent and child " ++
          "generation in the complete relation observation")

/-- Why an edge of the stable snapshot stands in the way of an observation. -/
def stableRejection (observed : ObservedRelations) (old : PartitionEdge F) : Option String :=
  match observed.get? old.key.parent with
  | none => some ("partition parent was absent from the relation set; no edge " ++
      "lifecycle event is provable")
  | some parent =>
    if parent ≠ old.key.parentGeneration then
      some ("partition parent OID/generation reuse was observed; refusing " ++
        "to manufacture an edge event")
    else match observed.get? old.key.child with
      | none => none
      | some child =>
        if child ≠ old.key.childGeneration then
          some ("partition child OID/generation reuse was observed; refusing " ++
            "to manufacture an edge event")
        else none

/-! ### Changes -/

/-- `PARTITION_CHANGE_KINDS`. -/
inductive PartitionKind
  | attached
  | detached
  | dropped
deriving DecidableEq, Repr

/-- `_partition_change_shape`: an attached edge is the new one of its change, any other the old
one. -/
structure TransitionShape where
  kind : PartitionKind
  key : EdgeKey
deriving DecidableEq, Repr

/-- A `CatalogChange` of a partition kind. `serial` stands for the identity of the object, once it
is queued. -/
structure PartitionChange (F : Type) where
  kind : PartitionKind
  edge : PartitionEdge F
  detectedLsn : ℕ
  observationEpoch : ℕ
  confirmations : ℕ := 1
  state : ChangeState := .observed
  serial : ℕ := 0

/-- `_partition_change_shape`. -/
def PartitionChange.shape (change : PartitionChange F) : TransitionShape :=
  ⟨change.kind, change.edge.key⟩

/-- `_partition_change_holds`, of a change that has the edge of its kind. -/
def TransitionShape.holds (shape : TransitionShape) (current : Topology F)
    (observed : ObservedRelations) : Bool :=
  match shape.kind with
  | .attached => current.contains shape.key
  | .detached => !current.contains shape.key &&
      observed.get? shape.key.child = some shape.key.childGeneration
  | .dropped => !current.contains shape.key && !observed.contains shape.key.child

/-! ### The watcher -/

/-- The part of the watcher that partitions are about. -/
structure PartitionWatch (F : Type) where
  /-- `_snapshot_partitions`. -/
  stable : Topology F := ∅
  baselineInitialized : Bool := false
  unconfirmed : Dict TransitionShape (PartitionChange F) := ∅
  /-- `_changes`. -/
  changes : List (PartitionChange F) := []
  persistedEdges : Topology F := ∅
  persistedInitialized : Bool := false
  snapshotDirty : Bool := false
  /-- `_partition_observation_reason`: why the last observation is held pending. -/
  reason : Option String := none
  lastDetectionLsn : ℕ := 0
  /-- The identity of the next object that is queued. -/
  nextSerial : ℕ := 0

/-- Equality of dictionaries. -/
def Topology.same [DecidableEq F] (a b : Topology F) : Bool :=
  a.keys.length = b.keys.length && a.items.all fun item => b.get? item.1 = some item.2

/-- The candidates of an observation that wait, as they go through `_confirm_partition`. -/
structure Tally (F : Type) where
  unconfirmed : Dict TransitionShape (PartitionChange F)
  ready : List (PartitionChange F) := []
  waiting : ℕ := 0

/-- The change that is tracked for a candidate. -/
def tracked (unconfirmed : Dict TransitionShape (PartitionChange F))
    (change : PartitionChange F) : PartitionChange F :=
  match unconfirmed.get? change.shape with
  | none => { change with state := .unconfirmed }
  | some seen =>
    { seen with
      confirmations := seen.confirmations + 1
      detectedLsn := change.detectedLsn
      observationEpoch := change.observationEpoch
      state := .unconfirmed }

/-- `_confirm_partition`, counted. -/
def Tally.confirm (confirmPolls : ℕ) (tally : Tally F) (change : PartitionChange F) : Tally F :=
  let t := tracked tally.unconfirmed change
  if t.confirmations < confirmPolls then
    { tally with
      unconfirmed := tally.unconfirmed.set change.shape t
      waiting := tally.waiting + 1 }
  else
    { unconfirmed := tally.unconfirmed.erase change.shape
      ready := tally.ready ++ [t]
      waiting := tally.waiting + 1 }

/-- `_new_partition_change`. -/
def newPartitionChange (observation : TopologyObservation F) (kind : PartitionKind)
    (edge : PartitionEdge F) : PartitionChange F where
  kind := kind
  edge := edge
  detectedLsn := observation.detectionLsn
  observationEpoch := observation.observationEpoch

/-- The differences between the stable snapshot and the topology that is observed, the attached
edges first. -/
def candidates (order : EdgeKey → EdgeKey → Bool) (observation : TopologyObservation F)
    (observed : ObservedRelations) (stable current : Topology F) : List (PartitionChange F) :=
  let sorted (edges : List (EdgeKey × PartitionEdge F)) :=
    edges.insertionSort fun a b => order a.1 b.1 = true
  ((sorted (current.items.filter fun item => !stable.contains item.1)).map fun item =>
    newPartitionChange observation .attached item.2) ++
  (sorted (stable.items.filter fun item => !current.contains item.1)).map fun item =>
    newPartitionChange observation
      (if observed.contains item.2.key.child then .detached else .dropped) item.2

namespace PartitionWatch

/-- `_partition_observation_rejected`. -/
def reject (observation : TopologyObservation F) (reason : String) (s : PartitionWatch F) :
    PartitionWatch F :=
  { s with
    reason := some reason
    lastDetectionLsn :=
      if observation.detectionLsn ≠ 0 then observation.detectionLsn else s.lastDetectionLsn }

/-- The stable snapshot moves. -/
def advance [DecidableEq F] (current : Topology F) (s : PartitionWatch F) : PartitionWatch F :=
  { s with
    stable := current
    snapshotDirty := !current.same s.persistedEdges || !s.persistedInitialized }

/-- The observation is accepted. -/
def complete (observation : TopologyObservation F) (s : PartitionWatch F) : PartitionWatch F :=
  { s with reason := none, lastDetectionLsn := observation.detectionLsn }

/-- The changes that wait for confirmation, without those that no longer hold. -/
def stillUnconfirmed (shapes : List TransitionShape) (s : PartitionWatch F) :
    Dict TransitionShape (PartitionChange F) :=
  s.unconfirmed.filterMapValues fun shape change => if shape ∈ shapes then some change else none

/-- The live changes, without those that an observation supersedes. -/
def stillLive (current : Topology F) (observed : ObservedRelations) (s : PartitionWatch F) :
    List (PartitionChange F) :=
  s.changes.filter fun change => change.state.isLive && change.shape.holds current observed

/-- The changes that are queued, as objects of their own. -/
def enqueue (ready : List (PartitionChange F)) (serial : ℕ) : List (PartitionChange F) :=
  ready.mapIdx fun i change => { change with state := .pending, serial := serial + i }

/-- The tally of an observation: a candidate waits unless a live change says the same. -/
def tally (confirmPolls : ℕ) (found : List (PartitionChange F)) (current : Topology F)
    (observed : ObservedRelations) (s : PartitionWatch F) : Tally F :=
  (found.filter fun change => !(s.stillLive current observed).any fun item =>
    item.shape = change.shape && item.shape.holds current observed).foldl
      (Tally.confirm confirmPolls)
      { unconfirmed := s.stillUnconfirmed (found.map PartitionChange.shape) }

/-- The comparison of an accepted observation with the stable snapshot. -/
def confirmAll [DecidableEq F] (order : EdgeKey → EdgeKey → Bool) (confirmPolls : ℕ)
    (observation : TopologyObservation F) (observed : ObservedRelations) (current : Topology F)
    (s : PartitionWatch F) : PartitionWatch F :=
  let found := candidates order observation observed s.stable current
  let tally := s.tally confirmPolls found current observed
  let waits := { s with
    unconfirmed := tally.unconfirmed
    changes := s.stillLive current observed }
  if tally.waiting ≠ 0 ∧ tally.ready.length = tally.waiting then
    { waits with
      changes := waits.changes ++ enqueue tally.ready s.nextSerial
      nextSerial := s.nextSerial + tally.ready.length }.advance current
  else waits

/-- The topology of an observation that is accepted, or why it is rejected. -/
def read (observation : TopologyObservation F) (observed : ObservedRelations)
    (s : PartitionWatch F) : Except String (Topology F) :=
  if !observation.usable then
    .error ((observation.reason.filter (· ≠ "")).getD
      ("partition catalog result was empty, incomplete, unfenced, " ++
      "or contained an in-progress edge"))
  else match readEdges observed observation.edges ∅ with
    | .error reason => .error reason
    | .ok current =>
      match s.stable.items.findSome? fun item => stableRejection observed item.2 with
      | some reason => .error reason
      | none => .ok current

/-- `_compare_partitions`. -/
def compare [DecidableEq F] (order : EdgeKey → EdgeKey → Bool) (confirmPolls : ℕ)
    (observation : TopologyObservation F) (observed : ObservedRelations) (s : PartitionWatch F) :
    PartitionWatch F :=
  match s.read observation observed with
  | .error reason => s.reject observation reason
  | .ok current =>
    if !s.baselineInitialized then
      ({ s with baselineInitialized := true }.advance current).complete observation
    else (s.confirmAll order confirmPolls observation observed current).complete observation

/-- `_emit_marker`, after the marker is written. -/
def mark (s : PartitionWatch F) : PartitionWatch F :=
  { s with changes := s.changes.map fun change =>
      if change.state.isLive && change.state.can .marked then { change with state := .marked }
      else change }

/-- `due`, without grace. -/
def due (durableLsn : ℕ) (s : PartitionWatch F) : PartitionWatch F :=
  { s with changes := s.changes.map fun change =>
      if !change.state.isLive then change
      else if change.detectedLsn ≤ durableLsn then { change with state := .due }
      else { change with state := .deferred } }

/-- `settle`: of the changes of a committed plan, those that are due leave the queue. -/
def settle (serials : List ℕ) (s : PartitionWatch F) : PartitionWatch F :=
  { s with changes := s.changes.filter fun change =>
      !(change.serial ∈ serials && change.state = .due) }

end PartitionWatch

/-! ### What is read -/

section Reading

variable {observed : ObservedRelations}

/-- Every edge stands under its own key. -/
def Topology.Keyed (t : Topology F) : Prop := ∀ item ∈ t.items, item.2.key = item.1

theorem Topology.Keyed.set {t : Topology F} (h : t.Keyed) (edge : PartitionEdge F) :
    Topology.Keyed (t.set edge.key edge) := by
  intro item hitem
  have hget := Dict.get?_eq_some_iff.2 hitem
  by_cases heq : item.1 = edge.key
  · rw [heq, Dict.get?_set_self] at hget
    rw [heq, ← Option.some.inj hget]
  · rw [Dict.get?_set_of_ne _ _ heq] at hget
    exact h _ (Dict.get?_eq_some_iff.1 hget)

/-- The generations of the edge are those of its relations. -/
def PartitionEdge.Backed (observed : ObservedRelations) (edge : PartitionEdge F) : Prop :=
  observed.get? edge.key.parent = some edge.key.parentGeneration ∧
    observed.get? edge.key.child = some edge.key.childGeneration

theorem readEdges_ok {edges : List (PartitionEdge F)} {t current : Topology F}
    (h : readEdges observed edges t = .ok current) (ht : t.Keyed)
    (hbacked : ∀ item ∈ t.items, item.2.Backed observed) :
    current.Keyed ∧ ∀ item ∈ current.items, item.2.Backed observed := by
  induction edges generalizing t with
  | nil =>
    obtain rfl := Except.ok.inj h
    exact ⟨ht, hbacked⟩
  | cons edge edges ih =>
    unfold readEdges at h
    split_ifs at h with hdup
    split at h
    · next parent child hparent hchild =>
      split_ifs at h with hp hc
      rw [not_not] at hp hc
      refine ih h (ht.set edge) fun item hitem => ?_
      have hget := Dict.get?_eq_some_iff.2 hitem
      by_cases heq : item.1 = edge.key
      · rw [heq, Dict.get?_set_self] at hget
        rw [← Option.some.inj hget]
        exact ⟨by rw [hparent, hp], by rw [hchild, hc]⟩
      · rw [Dict.get?_set_of_ne _ _ heq] at hget
        exact hbacked _ (Dict.get?_eq_some_iff.1 hget)
    · cases h

/-- An edge that its relations back does not stand in the way. -/
theorem PartitionEdge.Backed.stableRejection {edge : PartitionEdge F} (h : edge.Backed observed) :
    stableRejection observed edge = none := by
  unfold CdcFlight.stableRejection
  simp [h.1, h.2]

end Reading

/-! ### The differences -/

section Differences

variable {order : EdgeKey → EdgeKey → Bool} {observation : TopologyObservation F}
  {observed : ObservedRelations} {stable current : Topology F} {c : PartitionChange F}

theorem mem_candidates : c ∈ candidates order observation observed stable current ↔
    (∃ item ∈ current.items, stable.contains item.1 = false ∧
      c = newPartitionChange observation .attached item.2) ∨
    ∃ item ∈ stable.items, current.contains item.1 = false ∧
      c = newPartitionChange observation
        (if observed.contains item.2.key.child then .detached else .dropped) item.2 := by
  unfold candidates
  simp only [List.mem_append, List.mem_map, List.mem_insertionSort, List.mem_filter,
    Bool.not_eq_true', and_assoc, eq_comm (a := c)]

/-- Changes that are made of edges under their keys have different shapes. -/
private theorem nodup_shapes {t : Topology F} (ht : t.Keyed)
    (keep : EdgeKey × PartitionEdge F → Bool)
    (le : EdgeKey × PartitionEdge F → EdgeKey × PartitionEdge F → Prop) [DecidableRel le]
    (kind : PartitionEdge F → PartitionKind) :
    ((((t.items.filter keep).insertionSort le).map fun item =>
      newPartitionChange observation (kind item.2) item.2).map PartitionChange.shape).Nodup := by
  have hkeys : (((t.items.filter keep).insertionSort le).map Prod.fst).Nodup :=
    ((List.perm_insertionSort le _).map Prod.fst).nodup_iff.2
      (t.nodup.sublist (List.filter_sublist.map Prod.fst))
  refine List.Nodup.of_map TransitionShape.key ?_
  rw [List.map_map, List.map_map]
  convert hkeys using 1
  refine List.map_congr_left fun item hitem => ?_
  exact ht item (List.mem_filter.1 ((List.mem_insertionSort le).1 hitem)).1

/-- The differences have different shapes. -/
theorem nodup_candidates (hstable : stable.Keyed) (hcurrent : current.Keyed) :
    ((candidates order observation observed stable current).map PartitionChange.shape).Nodup := by
  unfold candidates
  dsimp only
  rw [List.map_append]
  refine List.Nodup.append (nodup_shapes hcurrent _ _ fun _ => .attached)
    (nodup_shapes hstable _ _ fun edge =>
      if observed.contains edge.key.child then .detached else .dropped) ?_
  intro shape hattached hremoved
  obtain ⟨c, hc, rfl⟩ := List.mem_map.1 hattached
  obtain ⟨item, -, rfl⟩ := List.mem_map.1 hc
  obtain ⟨c', hc', heq⟩ := List.mem_map.1 hremoved
  obtain ⟨item', -, rfl⟩ := List.mem_map.1 hc'
  have hkind := congrArg TransitionShape.kind heq
  simp only [PartitionChange.shape, newPartitionChange] at hkind
  split_ifs at hkind

end Differences

/-! ### Tallies -/

section Tallies

variable {confirmPolls : ℕ} {tally : Tally F} {found : List (PartitionChange F)}

theorem tracked_congr {u u' : Dict TransitionShape (PartitionChange F)} {c : PartitionChange F}
    (h : u'.get? c.shape = u.get? c.shape) : tracked u' c = tracked u c := by
  unfold tracked
  rw [h]

/-- A candidate changes what is tracked of its own shape only. -/
theorem Tally.get?_confirm (c : PartitionChange F) (shape : TransitionShape) :
    (tally.confirm confirmPolls c).unconfirmed.get? shape =
      if shape = c.shape then
        if (tracked tally.unconfirmed c).confirmations < confirmPolls then
          some (tracked tally.unconfirmed c)
        else none
      else tally.unconfirmed.get? shape := by
  unfold Tally.confirm
  dsimp only
  split_ifs with hconf heq heq
  · rw [heq, Dict.get?_set_self]
  · rw [Dict.get?_set_of_ne _ _ heq]
  · rw [heq, Dict.get?_erase, if_pos rfl]
  · rw [Dict.get?_erase, if_neg heq]

/-- **What a tally says**, of candidates with different shapes. -/
theorem Tally.confirmAll (hnodup : (found.map PartitionChange.shape).Nodup) :
    (found.foldl (Tally.confirm confirmPolls) tally).waiting = tally.waiting + found.length ∧
    (found.foldl (Tally.confirm confirmPolls) tally).ready = tally.ready ++
      (found.map (tracked tally.unconfirmed)).filter (confirmPolls ≤ ·.confirmations) ∧
    (∀ c ∈ found, (found.foldl (Tally.confirm confirmPolls) tally).unconfirmed.get? c.shape =
      if (tracked tally.unconfirmed c).confirmations < confirmPolls then
        some (tracked tally.unconfirmed c)
      else none) ∧
    ∀ shape ∉ found.map PartitionChange.shape,
      (found.foldl (Tally.confirm confirmPolls) tally).unconfirmed.get? shape =
        tally.unconfirmed.get? shape := by
  induction found generalizing tally with
  | nil => simp
  | cons c found ih =>
    rw [List.map_cons, List.nodup_cons] at hnodup
    obtain ⟨hnew, hnodup⟩ := hnodup
    obtain ⟨hwaiting, hready, hfound, hother⟩ := @ih (tally.confirm confirmPolls c) hnodup
    have hsame : ∀ c' ∈ found, tracked (tally.confirm confirmPolls c).unconfirmed c' =
        tracked tally.unconfirmed c' := by
      intro c' hc'
      refine tracked_congr ?_
      rw [Tally.get?_confirm, if_neg]
      intro heq
      exact hnew (heq ▸ List.mem_map_of_mem hc')
    rw [List.foldl_cons]
    refine ⟨?_, ?_, ?_, ?_⟩
    · have hone : (tally.confirm confirmPolls c).waiting = tally.waiting + 1 := by
        unfold Tally.confirm
        dsimp only
        split_ifs <;> rfl
      rw [hwaiting, hone, List.length_cons]
      omega
    · rw [hready, List.map_congr_left hsame, List.map_cons]
      unfold Tally.confirm
      dsimp only
      by_cases hconf : (tracked tally.unconfirmed c).confirmations < confirmPolls
      · rw [if_pos hconf, List.filter_cons_of_neg (by simpa using hconf)]
      · rw [if_neg hconf, List.filter_cons_of_pos (by simpa using hconf), List.append_assoc]
        rfl
    · intro c' hc'
      rcases List.mem_cons.1 hc' with rfl | hc'
      · rw [hother _ hnew, Tally.get?_confirm, if_pos rfl]
      · rw [hfound c' hc', hsame c' hc']
    · intro shape hshape
      rw [List.map_cons, List.mem_cons, not_or] at hshape
      rw [hother shape hshape.2, Tally.get?_confirm, if_neg hshape.1]

end Tallies

end CdcFlight
