import CdcFlight.Catalog.Confirmation

/-!
# Durable partition facts

What of the partition topology is in the destination: the persisted edges, which replace the stable
snapshot at a restart, and the log of partition events. Events and edges of one plan are written in
one transaction. The edges are also written without a plan, by the flush after the watcher has
ended.

The digest by which an event is known is an arbitrary function of its kind and its edge. The rows of
the table of edges are in no order.

## Main definitions

* `CdcFlight.PartitionWatch.snapshotForPlan`, `CdcFlight.PartitionWatch.snapshotForFlush`.
* `CdcFlight.PartitionRun`: the watcher, the destination and the plan that is being applied.
* `CdcFlight.PartitionRun.Preserving`: the condition on a step.

## Main results

* `CdcFlight.PartitionRun.durableOnce_run`: in a run without such a step the persisted edges have
  committed transitions only, and no confirmed transition is lost or written twice.
-/

namespace CdcFlight

open Lib

variable {F ι : Type}

namespace PartitionWatch

/-- What `due` returns. -/
def dueChanges (durableLsn : ℕ) (s : PartitionWatch F) : List (PartitionChange F) :=
  (s.due durableLsn).changes.filter fun change =>
    change.state.isLive && change.detectedLsn ≤ durableLsn

/-- `partition_snapshot_for_plan`. -/
def snapshotForPlan (due : List (PartitionChange F)) (s : PartitionWatch F) :
    Option (List (PartitionEdge F)) :=
  if !s.snapshotDirty then none
  else if !s.unconfirmed.isEmpty then none
  else if s.changes.any fun change =>
      change.state.isLive && !due.any fun planned => planned.serial = change.serial then none
  else some s.stable.values

/-- `partition_snapshot_for_flush`. -/
def snapshotForFlush (s : PartitionWatch F) : Option (List (PartitionEdge F)) :=
  if !s.snapshotDirty || !s.unconfirmed.isEmpty then none
  else if s.changes.any fun change => change.state.isLive then none
  else some s.stable.values

/-- `mark_partition_snapshot_persisted`. -/
def markPersisted [DecidableEq F] (edges : List (PartitionEdge F)) (s : PartitionWatch F) :
    PartitionWatch F :=
  { s with
    persistedEdges := edgesByKey edges
    persistedInitialized := true
    snapshotDirty := !(edgesByKey edges).same s.stable }

/-- The watcher of a new process, with the persisted edges if there is a baseline. -/
def load (edges : Option (List (PartitionEdge F))) (serial : ℕ) : PartitionWatch F where
  stable := edgesByKey (edges.getD [])
  baselineInitialized := edges.isSome
  persistedEdges := edgesByKey (edges.getD [])
  persistedInitialized := edges.isSome
  nextSerial := serial

end PartitionWatch

/-! ### The destination -/

/-- The tables `partition_edges`, with the row that says that there is a baseline, and
`partition_events`, whose key is the event's digest. -/
structure PartitionStore (F ι : Type) where
  edges : Option (List (PartitionEdge F)) := none
  events : List ι := []
  nodup : events.Nodup := by exact List.nodup_nil

namespace PartitionStore

variable [DecidableEq ι]

/-- `write_partition_event`: nothing is done when the event is there. -/
def writeEvent (store : PartitionStore F ι) (event : ι) : PartitionStore F ι where
  edges := store.edges
  events := if event ∈ store.events then store.events else store.events ++ [event]
  nodup := by
    split_ifs with h
    · exact store.nodup
    · exact List.nodup_append.2 ⟨store.nodup, List.nodup_singleton _, fun a ha b hb heq =>
        h (List.mem_singleton.1 hb ▸ heq ▸ ha)⟩

/-- `write_partition_snapshot`. -/
def writeSnapshot (store : PartitionStore F ι) (edges : List (PartitionEdge F)) :
    PartitionStore F ι :=
  { store with edges := some edges }

/-- What `apply` writes of a plan. -/
def write (eventId : TransitionShape → ι) (store : PartitionStore F ι)
    (events : List (PartitionChange F)) (edges : Option (List (PartitionEdge F))) :
    PartitionStore F ι :=
  events.foldl (fun store change => store.writeEvent (eventId change.shape))
    (edges.elim store store.writeSnapshot)

end PartitionStore

/-! ### Runs -/

/-- What a plan says about partitions: a flush is a plan without events. -/
structure PartitionPlan (F : Type) where
  events : List (PartitionChange F) := []
  edges : Option (List (PartitionEdge F)) := none
  committed : Bool := false

/-- What happens. -/
inductive PartitionStep (F : Type)
  | observe (observation : TopologyObservation F) (observed : ObservedRelations)
  | mark
  | due (durableLsn : ℕ)
  | snapshotForPlan
  | snapshotForFlush
  | commit
  | settle
  | rollback
  | restart

/-- The watcher, the destination and the plan that is being applied; with the baseline that was
adopted when nothing was persisted, the transitions that were confirmed and what was seen last since
the start. -/
structure PartitionRun (F ι : Type) where
  watch : PartitionWatch F
  store : PartitionStore F ι
  plan : Option (PartitionPlan F) := none
  adopted : Finset EdgeKey := ∅
  confirmed : List TransitionShape := []
  sight : Option Sighting := none

namespace PartitionRun

variable [DecidableEq F] [DecidableEq ι] (order : EdgeKey → EdgeKey → Bool) (polls : ℕ)
  (eventId : TransitionShape → ι)

/-- The watcher starts, on what it finds in the destination. -/
def start (store : PartitionStore F ι) : PartitionRun F ι where
  watch := .load store.edges 0
  store := store

/-- One step. -/
def step (r : PartitionRun F ι) : PartitionStep F → PartitionRun F ι
  | .observe observation observed =>
    let next := r.watch.compare order (TopologyRun.confirmPolls polls) observation observed
    match r.watch.read observation observed with
    | .error _ => { r with watch := next }
    | .ok current =>
      { r with
        watch := next
        adopted := if r.watch.baselineInitialized then r.adopted else current.edges
        confirmed := r.confirmed ++ (next.changes.filter
          (r.watch.nextSerial ≤ ·.serial)).map PartitionChange.shape
        sight := some (r.watch.sighting current observed) }
  | .mark => { r with watch := r.watch.mark }
  | .due durableLsn =>
    match r.plan with
    | some _ => r
    | none =>
      { r with
        watch := r.watch.due durableLsn
        plan := some { events := r.watch.dueChanges durableLsn } }
  | .snapshotForPlan =>
    match r.plan with
    | some plan =>
      if plan.committed then r
      else { r with plan := some { plan with edges := r.watch.snapshotForPlan plan.events } }
    | none => r
  | .snapshotForFlush =>
    match r.plan, r.watch.snapshotForFlush with
    | none, some edges => { r with plan := some { edges := some edges } }
    | _, _ => r
  | .commit =>
    match r.plan with
    | some plan =>
      if plan.committed then r
      else
        { r with
          store := r.store.write eventId plan.events plan.edges
          plan := some { plan with committed := true } }
    | none => r
  | .settle =>
    match r.plan with
    | some plan =>
      if plan.committed then
        let settled := r.watch.settle (plan.events.map PartitionChange.serial)
        { r with
          watch := plan.edges.elim settled fun edges => settled.markPersisted edges
          plan := none }
      else r
    | none => r
  | .rollback =>
    match r.plan with
    | some plan => if plan.committed then r else { r with plan := none }
    | none => r
  | .restart =>
    { r with
      watch := .load r.store.edges r.watch.nextSerial
      plan := none
      sight := none }

/-- A run. -/
def run (store : PartitionStore F ι) (steps : List (PartitionStep F)) : PartitionRun F ι :=
  steps.foldl (step order polls eventId) (start store)

/-! ### What it is for -/

/-- The edges that the persisted snapshot stands for. -/
def durable (r : PartitionRun F ι) : Finset EdgeKey :=
  r.store.edges.elim r.adopted fun edges => (edgesByKey edges).edges

/-- The transition is in the change log. -/
def Logged (r : PartitionRun F ι) (shape : TransitionShape) : Prop :=
  eventId shape ∈ r.store.events

/-- A live change says the transition. -/
def Live (r : PartitionRun F ι) (shape : TransitionShape) : Prop :=
  ∃ change ∈ r.watch.changes, change.state.isLive ∧ change.shape = shape

/-- Every difference between two topologies is one of some transitions. -/
def Explains (S : TransitionShape → Prop) (before after : Finset EdgeKey) : Prop :=
  ∀ key, (key ∈ after → key ∉ before → S ⟨.attached, key⟩) ∧
    (key ∈ before → key ∉ after → S ⟨.detached, key⟩ ∨ S ⟨.dropped, key⟩)

/-- What is persisted after a step differs from what was durable before it by logged transitions. -/
def WritesLogged (r next : PartitionRun F ι) : Prop :=
  ∀ edges, next.store.edges = some edges →
    Explains (next.Logged eventId) r.durable (edgesByKey edges).edges

/-- A transition that is not committed is still on its way: it is queued, or the observations since
the start show it, so that it is confirmed again. -/
def Awaited (r : PartitionRun F ι) (shape : TransitionShape) : Prop :=
  r.Live shape ∨ ∀ g, r.sight = some g → g.Shows shape

/-- **Partition facts are durable exactly once.** The persisted snapshot never has the effect of a
transition that was not committed before it or with it; a transition that was confirmed is committed
once, or is on its way; and a queued change is committed by the next plan whose position has passed
its own. -/
structure DurableOnce (store : PartitionStore F ι) (steps : List (PartitionStep F)) : Prop where
  logged : EachAfter (fun before next => (run order polls eventId store before).WritesLogged
    eventId ((run order polls eventId store before).step order polls eventId next)) steps
  once : ∀ shape ∈ (run order polls eventId store steps).confirmed,
    (run order polls eventId store steps).store.events.count (eventId shape) = 1 ∨
      (run order polls eventId store steps).store.events.count (eventId shape) = 0 ∧
        (run order polls eventId store steps).Awaited shape
  committed : ∀ change ∈ (run order polls eventId store steps).watch.changes,
    change.state.isLive → (run order polls eventId store steps).plan = none →
    ∀ durableLsn, change.detectedLsn ≤ durableLsn →
      (run order polls eventId store (steps ++ [.due durableLsn, .snapshotForPlan,
        .commit])).Logged eventId change.shape

/-- **The condition on a step.** An accepted observation undoes no confirmed transition that is not
committed, nor an edge whose last transition is not in the persisted snapshot; and a baseline is
adopted only when all confirmed transitions are committed. -/
def Preserving (r : PartitionRun F ι) : PartitionStep F → Prop
  | .observe observation observed => ∀ current, r.watch.read observation observed = .ok current →
    if r.watch.baselineInitialized then
      (∀ shape ∈ r.confirmed, ¬ r.Logged eventId shape → shape.holds current observed) ∧
      ∀ key, (key ∈ r.watch.stable.edges ↔ key ∈ r.durable) ∨
        (key ∈ current.edges ↔ key ∈ r.watch.stable.edges)
    else ∀ shape ∈ r.confirmed, r.Logged eventId shape
  | _ => True

/-! ### The invariant -/

/-- What a plan that is not committed carries, when it has the edges `carried`. -/
structure Carries (r : PartitionRun F ι) (events : List (PartitionChange F))
    (carried : Finset EdgeKey) : Prop where
  logged : Explains (fun shape => r.Logged eventId shape ∨
    ∃ change ∈ events, eventId change.shape = eventId shape) r.durable carried
  later : Explains (· ∈ r.confirmed) carried r.watch.stable.edges
  agrees : ∀ key, (key ∈ carried ↔ key ∈ r.durable) ∨
    (key ∈ r.watch.stable.edges ↔ key ∈ carried)
  new : ∀ shape ∈ r.confirmed, ¬ r.Logged eventId shape →
    (¬ ∃ change ∈ events, eventId change.shape = eventId shape) → shape.New carried

/-- What holds of the plan that is being applied. -/
structure Planned (r : PartitionRun F ι) (plan : PartitionPlan F) : Prop where
  named : ∀ planned ∈ plan.events, planned.serial < r.watch.nextSerial ∧
    ∀ change ∈ r.watch.changes, change.serial = planned.serial → change.shape = planned.shape
  baseline : plan.edges.isSome = true → r.watch.baselineInitialized = true
  logged : plan.committed = true → ∀ planned ∈ plan.events, r.Logged eventId planned.shape
  carries : plan.committed = false → ∀ edges, plan.edges = some edges →
    r.Carries eventId plan.events (edgesByKey edges).edges

/-- A transition that is not committed is queued, or it is not in the stable snapshot and has been
seen since the start if anything has. -/
def Pending (r : PartitionRun F ι) (shape : TransitionShape) : Prop :=
  r.Live shape ∨ shape.New r.watch.stable.edges ∧ ∀ g, r.sight = some g → g.Shows shape

/-- A watcher that has no baseline yet. -/
structure Fresh (r : PartitionRun F ι) : Prop where
  edges : r.store.edges = none
  changes : r.watch.changes = []
  clean : r.watch.snapshotDirty = false
  unconfirmed : ∀ shape, r.watch.unconfirmed.get? shape = none
  sight : r.sight = none

/-- **What every run keeps** whose steps meet the condition. -/
structure Kept (r : PartitionRun F ι) : Prop where
  fresh : r.watch.baselineInitialized = false → r.Fresh
  coupled : r.watch.baselineInitialized = true →
    ∃ t : TopologyRun F, t.watch = r.watch ∧ t.Coupled polls
  named : ∀ c ∈ r.watch.changes, ∀ c' ∈ r.watch.changes, c.serial = c'.serial → c.shape = c'.shape
  pending : r.watch.baselineInitialized = true →
    ∀ shape ∈ r.confirmed, ¬ r.Logged eventId shape → r.Pending shape
  new : r.watch.baselineInitialized = true →
    ∀ shape ∈ r.confirmed, ¬ r.Logged eventId shape → shape.New r.durable
  differences : r.watch.baselineInitialized = true →
    Explains (· ∈ r.confirmed) r.durable r.watch.stable.edges
  planned : ∀ plan, r.plan = some plan → r.Planned eventId plan

theorem Explains.refl (S : TransitionShape → Prop) (edges : Finset EdgeKey) :
    Explains S edges edges :=
  fun _ => ⟨fun h h' => absurd h h', fun h h' => absurd h h'⟩

theorem Explains.mono {S S' : TransitionShape → Prop} {before after : Finset EdgeKey}
    (h : Explains S before after) (hS : ∀ shape, S shape → S' shape) : Explains S' before after :=
  fun key => ⟨fun hafter hbefore => hS _ ((h key).1 hafter hbefore),
    fun hbefore hafter => ((h key).2 hbefore hafter).imp (hS _) (hS _)⟩

/-- The differences from a third topology, when the stable snapshot moves to what is seen. -/
theorem Explains.move {S : TransitionShape → Prop} {before : Finset EdgeKey} {g : Sighting}
    (h : Explains S before g.stable) (hS : ∀ shape, g.Shows shape → S shape) :
    Explains S before g.edges := by
  refine fun key => ⟨fun hafter hbefore => ?_, fun hbefore hafter => ?_⟩
  · by_cases hstable : key ∈ g.stable
    · exact (h key).1 hstable hbefore
    · exact hS ⟨.attached, key⟩ ⟨hafter, hstable⟩
  · by_cases hstable : key ∈ g.stable
    · by_cases hchild : key.child ∈ g.relations
      · exact Or.inl (hS ⟨.detached, key⟩ ⟨hstable, hafter, hchild⟩)
      · exact Or.inr (hS ⟨.dropped, key⟩ ⟨hstable, hafter, hchild⟩)
    · exact (h key).2 hbefore hstable

/-! ### Observations -/

section Observing

variable {order : EdgeKey → EdgeKey → Bool} {polls : ℕ} {eventId : TransitionShape → ι}
  {r : PartitionRun F ι} {observation : TopologyObservation F} {observed : ObservedRelations}
  {current : Topology F}

omit [DecidableEq F] in
/-- A name is given once. -/
theorem shape_eq_of_serial {ready : List (PartitionChange F)} {serial : ℕ}
    {c c' : PartitionChange F} (hc : c ∈ PartitionWatch.enqueue ready serial)
    (hc' : c' ∈ PartitionWatch.enqueue ready serial) (h : c.serial = c'.serial) :
    c.shape = c'.shape := by
  obtain ⟨i, hi, rfl⟩ := List.mem_mapIdx.1 hc
  obtain ⟨j, hj, rfl⟩ := List.mem_mapIdx.1 hc'
  obtain rfl : i = j := Nat.add_left_cancel h
  rfl

omit [DecidableEq F] in
/-- A queued change is live. -/
theorem isLive_enqueue {ready : List (PartitionChange F)} {serial : ℕ} {c : PartitionChange F}
    (hc : c ∈ PartitionWatch.enqueue ready serial) : c.state.isLive = true := by
  obtain ⟨i, hi, rfl⟩ := List.mem_mapIdx.1 hc
  rfl

/-- What an accepted observation does to a watcher that has its baseline: `shapes` are confirmed. -/
structure Confirmed (polls : ℕ) (observed : ObservedRelations) (current : Topology F)
    (watch next : PartitionWatch F) (shapes : List TransitionShape) : Prop where
  baseline : next.baselineInitialized = true
  shapes_eq : (next.changes.filter (watch.nextSerial ≤ ·.serial)).map PartitionChange.shape = shapes
  shown : ∀ shape ∈ shapes, (watch.sighting current observed).Shows shape
  moves : next.stable = watch.stable ∨ next.stable = current ∧
    ∀ shape, (watch.sighting current observed).Shows shape → shape ∈ shapes
  live : ∀ shape ∈ shapes, ∃ c ∈ next.changes, c.state.isLive ∧ c.shape = shape
  kept : ∀ c ∈ watch.changes, c.state.isLive → c.shape.holds current observed → c ∈ next.changes
  changes : ∀ c ∈ next.changes, c ∈ watch.changes ∨ watch.nextSerial ≤ c.serial
  named : ∀ c ∈ next.changes, ∀ c' ∈ next.changes, watch.nextSerial ≤ c.serial →
    c.serial = c'.serial → c.shape = c'.shape
  serials : watch.nextSerial ≤ next.nextSerial
  coupled : ∃ t : TopologyRun F, t.watch = next ∧ t.Coupled polls

theorem exists_confirmed {t : TopologyRun F} (h : t.Coupled polls)
    (hread : t.watch.read observation observed = .ok current) :
    ∃ shapes, Confirmed polls observed current t.watch
      (t.watch.compare order (TopologyRun.confirmPolls polls) observation observed) shapes := by
  have hcases : TopologyRun.Confirms order polls observation observed current t
        (t.watch.compare order (TopologyRun.confirmPolls polls) observation observed) ∨
      TopologyRun.Waits order polls observed current t
        (t.watch.compare order (TopologyRun.confirmPolls polls) observation observed) :=
    h.compare_cases hread
  have hnext : ∃ t' : TopologyRun F, t'.watch = t.watch.compare order
      (TopologyRun.confirmPolls polls) observation observed ∧ t'.Coupled polls := by
    have hstep : (t.step order polls (.observe observation observed)).Coupled polls := h.step _
    rw [TopologyRun.step_observe hread] at hstep
    exact ⟨_, rfl, hstep⟩
  have hold : ∀ c ∈ t.watch.stillLive current observed, c.serial < t.watch.nextSerial :=
    fun c hc => h.stillLive_serial hc
  rcases hcases with hconf | hwait
  · obtain ⟨hshows, -⟩ : (∀ shape, (t.watch.sighting current observed).Shows shape ↔
        shape ∈ (t.found order observation observed current).map PartitionChange.shape) ∧
        (((t.found order observation observed current).map PartitionChange.shape).map
          TransitionShape.key).Nodup := h.shapes_found (TopologyRun.keyed_of_read hread).1
    have hshapes : (PartitionWatch.enqueue ((t.found order observation observed current).map
        (tracked t.watch.unconfirmed)) t.watch.nextSerial).map PartitionChange.shape =
        (t.found order observation observed current).map PartitionChange.shape := by
      rw [TopologyRun.map_shape_enqueue, List.map_map]
      exact List.map_congr_left fun c hc => (h.tracked_eq hc).1
    refine ⟨(t.found order observation observed current).map PartitionChange.shape,
      hconf.baseline, ?_, fun shape hshape => (hshows shape).2 hshape,
      Or.inr ⟨hconf.stable, fun shape hshape => (hshows shape).1 hshape⟩, ?_, ?_, ?_, ?_, ?_, hnext⟩
    · rw [hconf.changes, List.filter_append, h.filter_stillLive, List.nil_append,
        List.filter_eq_self.2 fun c hc => decide_eq_true (TopologyRun.serial_enqueue hc).1, hshapes]
    · intro shape hshape
      rw [← hshapes] at hshape
      obtain ⟨c, hc, rfl⟩ := List.mem_map.1 hshape
      rw [hconf.changes]
      exact ⟨c, List.mem_append_right _ hc, isLive_enqueue hc, rfl⟩
    · intro c hc hlive hholds
      rw [hconf.changes]
      exact List.mem_append_left _ (List.mem_filter.2 ⟨hc, by rw [hlive, hholds]; rfl⟩)
    · intro c hc
      rw [hconf.changes] at hc
      rcases List.mem_append.1 hc with hc | hc
      · exact Or.inl (List.mem_filter.1 hc).1
      · exact Or.inr (TopologyRun.serial_enqueue hc).1
    · intro c hc c' hc' hle heq
      rw [hconf.changes] at hc hc'
      rcases List.mem_append.1 hc with hc | hc
      · have := hold c hc
        omega
      · rcases List.mem_append.1 hc' with hc' | hc'
        · have := hold c' hc'
          omega
        · exact shape_eq_of_serial hc hc' heq
    · rw [hconf.nextSerial]
      exact Nat.le_add_right _ _
  · refine ⟨[], hwait.baseline, ?_, List.forall_mem_nil _, Or.inl hwait.stable,
      List.forall_mem_nil _, ?_, ?_, ?_, hwait.nextSerial.ge, hnext⟩
    · rw [hwait.changes, h.filter_stillLive]
      rfl
    · intro c hc hlive hholds
      rw [hwait.changes]
      exact List.mem_filter.2 ⟨hc, by rw [hlive, hholds]; rfl⟩
    · intro c hc
      rw [hwait.changes] at hc
      exact Or.inl (List.mem_filter.1 hc).1
    · intro c hc c' hc' hle heq
      rw [hwait.changes] at hc
      have := hold c hc
      omega

omit [DecidableEq F] in
/-- A transition that holds and is not in the stable snapshot is seen. -/
theorem shows_of_holds {watch : PartitionWatch F} {shape : TransitionShape}
    (hnew : shape.New watch.stable.edges) (hholds : shape.holds current observed = true) :
    (watch.sighting current observed).Shows shape := by
  have heffect := TopologyRun.effect_of_holds hholds
  obtain ⟨kind, key⟩ := shape
  have hrelation : key.child ∈ observed.keys.toFinset ↔ observed.contains key.child = true := by
    rw [List.mem_toFinset, Dict.contains_eq_true_iff]
  cases kind with
  | attached => exact ⟨heffect.1 rfl, hnew.1 rfl⟩
  | detached =>
    simp only [TransitionShape.holds, Bool.and_eq_true, decide_eq_true_eq] at hholds
    refine ⟨?_, fun hmem => absurd (heffect.2 hmem) (by simp), ?_⟩
    · by_contra hstable
      exact absurd (hnew.2 hstable) (by simp)
    · refine hrelation.2 ?_
      rw [Dict.contains, hholds.2]
      rfl
  | dropped =>
    simp only [TransitionShape.holds, Bool.and_eq_true, Bool.not_eq_true'] at hholds
    refine ⟨?_, fun hmem => absurd (heffect.2 hmem) (by simp), ?_⟩
    · by_contra hstable
      exact absurd (hnew.2 hstable) (by simp)
    · intro hmem
      have := hrelation.1 hmem
      rw [hholds.2] at this
      cases this

/-- The run after an accepted observation. -/
theorem step_observe (hread : r.watch.read observation observed = .ok current) :
    r.step order polls eventId (.observe observation observed) =
      { r with
        watch := r.watch.compare order (TopologyRun.confirmPolls polls) observation observed
        adopted := if r.watch.baselineInitialized then r.adopted else current.edges
        confirmed := r.confirmed ++ ((r.watch.compare order (TopologyRun.confirmPolls polls)
          observation observed).changes.filter (r.watch.nextSerial ≤ ·.serial)).map
            PartitionChange.shape
        sight := some (r.watch.sighting current observed) } := by
  unfold step
  dsimp only
  rw [hread]

omit [DecidableEq F] [DecidableEq ι] in
/-- The plan that is being applied, when the stable snapshot moves. -/
theorem Planned.observe {watch : PartitionWatch F} {shapes : List TransitionShape}
    {sight : Option Sighting} {plan : PartitionPlan F} (h : r.Planned eventId plan)
    (hconf : Confirmed polls observed current r.watch watch shapes)
    (hagree : ∀ key, (key ∈ r.watch.stable.edges ↔ key ∈ r.durable) ∨
      (key ∈ current.edges ↔ key ∈ r.watch.stable.edges)) :
    Planned eventId { r with
      watch := watch
      confirmed := r.confirmed ++ shapes
      sight := sight } plan := by
  refine ⟨fun planned hplanned => ?_, fun _ => hconf.baseline, h.logged,
    fun hcommitted edges hedges => ?_⟩
  · obtain ⟨hlt, hnamed⟩ := h.named planned hplanned
    refine ⟨hlt.trans_le hconf.serials, fun c hc heq => ?_⟩
    rcases hconf.changes c hc with hc | hle
    · exact hnamed c hc heq
    · omega
  · have hcarries := h.carries hcommitted edges hedges
    have hlater : Explains (· ∈ r.confirmed ++ shapes) (edgesByKey edges).edges
        r.watch.stable.edges :=
      hcarries.later.mono fun _ hshape => List.mem_append_left _ hshape
    refine ⟨hcarries.logged, ?_, fun key => ?_, fun shape hshape hlog hevent => ?_⟩
    · rcases hconf.moves with hstable | ⟨hstable, hall⟩
      · dsimp only
        rw [hstable]
        exact hlater
      · dsimp only
        rw [hstable]
        have hmove : Explains (· ∈ r.confirmed ++ shapes) (edgesByKey edges).edges
            (r.watch.sighting current observed).edges :=
          Explains.move hlater fun shape hshape => List.mem_append_right _ (hall shape hshape)
        exact hmove
    · rcases hcarries.agrees key with hdurable | hcarried
      · exact Or.inl hdurable
      · rcases hconf.moves with hstable | ⟨hstable, -⟩
        · dsimp only
          rw [hstable]
          exact Or.inr hcarried
        · dsimp only
          rw [hstable]
          rcases hagree key with hsame | hsame
          · exact Or.inl (hcarried.symm.trans hsame)
          · exact Or.inr (hsame.trans hcarried)
    · rcases List.mem_append.1 hshape with hold | hnewly
      · exact hcarries.new shape hold hlog hevent
      · have hshow := hconf.shown shape hnewly
        have hnew : (shape.kind = .attached ↔ shape.key ∉ r.watch.stable.edges) := hshow.new
        have heffect : (shape.kind = .attached ↔ shape.key ∈ current.edges) := hshow.effect
        have hchanged := hagree shape.key
        show (shape.kind = .attached ↔ shape.key ∉ (edgesByKey edges).edges)
        rcases hcarries.agrees shape.key with hdurable | hcarried
        · have hsame : shape.key ∈ r.watch.stable.edges ↔ shape.key ∈ r.durable := by tauto
          tauto
        · tauto

/-- **An observation**, of a watcher that has its baseline. -/
theorem Kept.observe (h : r.Kept polls eventId)
    (hread : r.watch.read observation observed = .ok current)
    (hbaseline : r.watch.baselineInitialized = true)
    (hholds : ∀ shape ∈ r.confirmed, ¬ r.Logged eventId shape → shape.holds current observed)
    (hagree : ∀ key, (key ∈ r.watch.stable.edges ↔ key ∈ r.durable) ∨
      (key ∈ current.edges ↔ key ∈ r.watch.stable.edges)) :
    (r.step order polls eventId (.observe observation observed)).Kept polls eventId := by
  obtain ⟨t, ht, hcoupled⟩ := h.coupled hbaseline
  rw [← ht] at hread
  obtain ⟨shapes, hconf⟩ : ∃ shapes, Confirmed polls observed current t.watch
      (t.watch.compare order (TopologyRun.confirmPolls polls) observation observed) shapes :=
    exists_confirmed hcoupled hread
  rw [ht] at hread hconf
  rw [step_observe hread, hconf.shapes_eq, if_pos hbaseline]
  have hpending : ∀ shape ∈ r.confirmed ++ shapes, ¬ r.Logged eventId shape →
      (∃ c ∈ (r.watch.compare order (TopologyRun.confirmPolls polls) observation
        observed).changes, c.state.isLive ∧ c.shape = shape) ∨
      (r.watch.compare order (TopologyRun.confirmPolls polls) observation observed).stable =
        r.watch.stable ∧ shape.New r.watch.stable.edges ∧
        (r.watch.sighting current observed).Shows shape := by
    intro shape hshape hlog
    rcases List.mem_append.1 hshape with hold | hnewly
    · have hhold := hholds shape hold hlog
      rcases h.pending hbaseline shape hold hlog with ⟨c, hc, hlive, rfl⟩ | ⟨hnew, -⟩
      · exact Or.inl ⟨c, hconf.kept c hc hlive hhold, hlive, rfl⟩
      · have hshow := shows_of_holds hnew hhold
        rcases hconf.moves with hstable | ⟨-, hall⟩
        · exact Or.inr ⟨hstable, hnew, hshow⟩
        · exact Or.inl (hconf.live shape (hall shape hshow))
    · exact Or.inl (hconf.live shape hnewly)
  refine ⟨fun hnone => ?_, fun _ => hconf.coupled, fun c hc c' hc' heq => ?_,
    fun _ shape hshape hlog => ?_, fun _ shape hshape hlog => ?_, fun _ => ?_,
    fun plan hplan => (h.planned plan hplan).observe hconf hagree⟩
  · cases hconf.baseline.symm.trans hnone
  · by_cases hle : r.watch.nextSerial ≤ c.serial
    · exact hconf.named c hc c' hc' hle heq
    · rcases hconf.changes c hc with hold | hnew
      · rcases hconf.changes c' hc' with hold' | hnew'
        · exact h.named c hold c' hold' heq
        · omega
      · omega
  · rcases hpending shape hshape hlog with hlive | ⟨hstable, hnew, hshow⟩
    · exact Or.inl hlive
    · refine Or.inr ⟨?_, fun g hg => ?_⟩
      · dsimp only
        rw [hstable]
        exact hnew
      · obtain rfl := Option.some.inj hg
        exact hshow
  · rcases List.mem_append.1 hshape with hold | hnewly
    · exact h.new hbaseline shape hold hlog
    · have hshow := hconf.shown shape hnewly
      have hnew : (shape.kind = .attached ↔ shape.key ∉ r.watch.stable.edges) := hshow.new
      have heffect : (shape.kind = .attached ↔ shape.key ∈ current.edges) := hshow.effect
      have hchanged := hagree shape.key
      show (shape.kind = .attached ↔ shape.key ∉ r.durable)
      tauto
  · have hold : Explains (· ∈ r.confirmed ++ shapes) r.durable r.watch.stable.edges :=
      (h.differences hbaseline).mono fun _ hshape => List.mem_append_left _ hshape
    rcases hconf.moves with hstable | ⟨hstable, hall⟩
    · dsimp only
      rw [hstable]
      exact hold
    · dsimp only
      rw [hstable]
      have hmove : Explains (· ∈ r.confirmed ++ shapes) r.durable
          (r.watch.sighting current observed).edges :=
        Explains.move hold fun shape hshape => List.mem_append_right _ (hall shape hshape)
      exact hmove

/-- **The first observation** of a watcher that has no baseline. -/
theorem Kept.adopt (h : r.Kept polls eventId)
    (hread : r.watch.read observation observed = .ok current)
    (hbaseline : r.watch.baselineInitialized = false)
    (hlogged : ∀ shape ∈ r.confirmed, r.Logged eventId shape) :
    (r.step order polls eventId (.observe observation observed)).Kept polls eventId := by
  have hfresh := h.fresh hbaseline
  have hread' : ({ watch := r.watch, baseline := ∅ } : TopologyRun F).watch.read observation
      observed = .ok current := hread
  have hcompare : r.watch.compare order (TopologyRun.confirmPolls polls) observation observed =
      (PartitionWatch.advance current { r.watch with baselineInitialized := true }).complete
        observation := by
    unfold PartitionWatch.compare
    rw [hread]
    dsimp only
    rw [hbaseline]
    rfl
  have hchanges : ((PartitionWatch.advance current
      { r.watch with baselineInitialized := true }).complete observation).changes = [] :=
    hfresh.changes
  have hdurable : r.store.edges.elim current.edges (fun edges => (edgesByKey edges).edges) =
      current.edges := by
    rw [hfresh.edges]
    rfl
  rw [step_observe hread, hcompare, hchanges, hbaseline, if_neg Bool.false_ne_true]
  refine ⟨fun hnone => ?_, fun _ => ⟨{
      watch := (PartitionWatch.advance current
        { r.watch with baselineInitialized := true }).complete observation
      baseline := current.edges }, rfl, ?_⟩, ?_, fun _ shape hshape hlog => ?_,
    fun _ shape hshape hlog => ?_, fun _ => ?_, fun plan hplan => ?_⟩
  · cases hnone
  · refine ⟨rfl, (TopologyRun.keyed_of_read hread').1, fun shape c hc => ?_, ?_, ?_,
      List.forall_mem_nil _, eachAfter_nil, rfl⟩
    · cases (hfresh.unconfirmed shape).symm.trans hc
    · dsimp only
      rw [hchanges]
      exact List.forall_mem_nil _
    · dsimp only
      rw [hchanges]
      exact List.forall_mem_nil _
  · dsimp only
    rw [hchanges]
    exact List.forall_mem_nil _
  · exact absurd (hlogged shape ((List.append_nil r.confirmed) ▸ hshape)) hlog
  · exact absurd (hlogged shape ((List.append_nil r.confirmed) ▸ hshape)) hlog
  · show Explains _ (r.store.edges.elim current.edges fun edges => (edgesByKey edges).edges)
      current.edges
    rw [hdurable]
    exact Explains.refl _ _
  · have hplanned := h.planned plan hplan
    have hnone : plan.edges = none := by
      by_contra hsome
      have := hplanned.baseline (Option.ne_none_iff_isSome.1 hsome)
      rw [hbaseline] at this
      cases this
    refine ⟨fun planned hmem => ⟨(hplanned.named planned hmem).1, ?_⟩, fun _ => rfl,
      hplanned.logged, fun _ edges hedges => ?_⟩
    · dsimp only
      rw [hchanges]
      exact List.forall_mem_nil _
    · rw [hnone] at hedges
      cases hedges

end Observing

/-! ### The other steps -/

section Steps

variable {order : EdgeKey → EdgeKey → Bool} {polls : ℕ} {eventId : TransitionShape → ι}
  {r : PartitionRun F ι}

omit [DecidableEq F] [DecidableEq ι] in
/-- A step of the watcher that leaves its snapshot alone, queues nothing, and lets a live change go
only when it is logged. -/
theorem Kept.rewatch (h : r.Kept polls eventId) {w : PartitionWatch F}
    (hbaseline : w.baselineInitialized = r.watch.baselineInitialized)
    (hstable : w.stable = r.watch.stable) (hunconfirmed : w.unconfirmed = r.watch.unconfirmed)
    (hserial : w.nextSerial = r.watch.nextSerial)
    (hclean : r.watch.baselineInitialized = false → w.snapshotDirty = r.watch.snapshotDirty)
    (hchanges : ∀ c ∈ w.changes, ∃ c' ∈ r.watch.changes, c.serial = c'.serial ∧
      c.kind = c'.kind ∧ c.edge = c'.edge)
    (hlive : ∀ c ∈ r.watch.changes, c.state.isLive → ¬ r.Logged eventId c.shape →
      ∃ c' ∈ w.changes, c'.state.isLive ∧ c'.shape = c.shape) :
    Kept polls eventId { r with watch := w } := by
  have hshape : ∀ c ∈ w.changes, ∃ c' ∈ r.watch.changes, c.serial = c'.serial ∧
      c.shape = c'.shape := by
    intro c hc
    obtain ⟨c', hc', hsame, hkind, hedge⟩ := hchanges c hc
    refine ⟨c', hc', hsame, ?_⟩
    rw [PartitionChange.shape, PartitionChange.shape, hkind, hedge]
  refine ⟨fun hnone => ?_, fun hsome => ?_, fun c hc c' hc' heq => ?_,
    fun hsome shape hmem hlog => ?_, fun hsome => ?_, fun hsome => ?_, fun plan hplan => ?_⟩
  · have hnone' := hbaseline.symm.trans hnone
    have hfresh := h.fresh hnone'
    refine ⟨hfresh.edges, List.eq_nil_iff_forall_not_mem.2 fun c hc => ?_,
      (hclean hnone').trans hfresh.clean, ?_, hfresh.sight⟩
    · obtain ⟨c', hc', -⟩ := hchanges c hc
      rw [hfresh.changes] at hc'
      cases hc'
    · dsimp only
      rw [hunconfirmed]
      exact hfresh.unconfirmed
  · obtain ⟨t, ht, hcoupled⟩ := h.coupled (hbaseline.symm.trans hsome)
    rw [← ht] at hbaseline hstable hunconfirmed hserial hchanges
    exact ⟨_, rfl, hcoupled.congr hbaseline hstable hunconfirmed hserial hchanges⟩
  · obtain ⟨d, hd, hsame, hshape₁⟩ := hshape c hc
    obtain ⟨d', hd', hsame', hshape₂⟩ := hshape c' hc'
    rw [hshape₁, hshape₂]
    exact h.named d hd d' hd' (by rw [← hsame, ← hsame', heq])
  · rcases h.pending (hbaseline.symm.trans hsome) shape hmem hlog with ⟨c, hc, hl, rfl⟩ | hnew
    · obtain ⟨c', hc', hl', hsame⟩ := hlive c hc hl hlog
      exact Or.inl ⟨c', hc', hl', hsame⟩
    · refine Or.inr ⟨?_, hnew.2⟩
      dsimp only
      rw [hstable]
      exact hnew.1
  · exact h.new (hbaseline.symm.trans hsome)
  · dsimp only
    rw [hstable]
    exact h.differences (hbaseline.symm.trans hsome)
  · have hplanned := h.planned plan hplan
    refine ⟨fun planned hmem => ?_, fun hsome => hbaseline.trans (hplanned.baseline hsome),
      hplanned.logged, fun hcommitted edges hedges => ?_⟩
    · obtain ⟨hlt, hnamed⟩ := hplanned.named planned hmem
      refine ⟨hserial ▸ hlt, fun c hc heq => ?_⟩
      obtain ⟨c', hc', hsame, hshape'⟩ := hshape c hc
      rw [hshape']
      exact hnamed c' hc' (hsame.symm.trans heq)
    · have hcarries := hplanned.carries hcommitted edges hedges
      refine ⟨hcarries.logged, ?_, fun key => ?_, hcarries.new⟩
      · dsimp only
        rw [hstable]
        exact hcarries.later
      · dsimp only
        rw [hstable]
        exact hcarries.agrees key

omit [DecidableEq F] [DecidableEq ι] in
/-- Another plan. -/
theorem Kept.replan (h : r.Kept polls eventId) {plan : Option (PartitionPlan F)}
    (hplan : ∀ p, plan = some p → r.Planned eventId p) :
    Kept polls eventId { r with plan := plan } where
  fresh hnone := ⟨(h.fresh hnone).edges, (h.fresh hnone).changes, (h.fresh hnone).clean,
    (h.fresh hnone).unconfirmed, (h.fresh hnone).sight⟩
  coupled := h.coupled
  named := h.named
  pending := h.pending
  new := h.new
  differences := h.differences
  planned p hp := ⟨(hplan p hp).named, (hplan p hp).baseline, (hplan p hp).logged,
    fun hcommitted edges hedges => ⟨((hplan p hp).carries hcommitted edges hedges).logged,
      ((hplan p hp).carries hcommitted edges hedges).later,
      ((hplan p hp).carries hcommitted edges hedges).agrees,
      ((hplan p hp).carries hcommitted edges hedges).new⟩⟩

omit [DecidableEq F] in
theorem mem_edges_edgesByKey {edges : List (PartitionEdge F)} {key : EdgeKey} :
    key ∈ (edgesByKey edges).edges ↔ ∃ edge ∈ edges, edge.key = key := by
  unfold edgesByKey
  induction edges using List.reverseRecOn with
  | nil => simp [Topology.edges]
  | append_singleton edges edge ih =>
    rw [List.foldl_append, List.foldl_cons, List.foldl_nil, Topology.edges, List.mem_toFinset,
      Dict.mem_keys_set, ← List.mem_toFinset]
    rw [Topology.edges] at ih
    rw [ih]
    simp only [List.mem_append, List.mem_singleton, or_and_right, exists_or, exists_eq_left]
    rw [or_comm, eq_comm (a := key)]

omit [DecidableEq F] in
/-- The rows that are written of a topology. -/
theorem edges_edgesByKey_values {t : Topology F} (h : t.Keyed) :
    (edgesByKey t.values).edges = t.edges := by
  ext key
  rw [mem_edges_edgesByKey]
  constructor
  · rintro ⟨edge, hedge, rfl⟩
    obtain ⟨item, hitem, rfl⟩ := List.mem_map.1 hedge
    rw [h item hitem]
    exact Topology.mem_edges_of_item hitem
  · intro hkey
    obtain ⟨edge, hitem⟩ := Topology.exists_item hkey
    exact ⟨edge, List.mem_map_of_mem hitem, h _ hitem⟩

omit [DecidableEq F] [DecidableEq ι] in
/-- **A snapshot that is taken** when every live change is one of the plan. -/
theorem Kept.carries (h : r.Kept polls eventId) {events : List (PartitionChange F)}
    (hbaseline : r.watch.baselineInitialized = true)
    (hlive : ∀ c ∈ r.watch.changes, c.state.isLive → ∃ planned ∈ events, planned.shape = c.shape) :
    r.Carries eventId events (edgesByKey r.watch.stable.values).edges := by
  obtain ⟨t, ht, hcoupled⟩ := h.coupled hbaseline
  have hkeyed : r.watch.stable.Keyed := ht ▸ hcoupled.keyed
  rw [edges_edgesByKey_values hkeyed]
  have hcovered : ∀ shape ∈ r.confirmed, ¬ shape.New r.watch.stable.edges →
      r.Logged eventId shape ∨ ∃ change ∈ events, eventId change.shape = eventId shape := by
    intro shape hshape hold
    by_cases hlog : r.Logged eventId shape
    · exact Or.inl hlog
    · rcases h.pending hbaseline shape hshape hlog with ⟨c, hc, hl, rfl⟩ | ⟨hnew, -⟩
      · obtain ⟨planned, hplanned, hsame⟩ := hlive c hc hl
        exact Or.inr ⟨planned, hplanned, by rw [hsame]⟩
      · exact absurd hnew hold
  have hdifferences := h.differences hbaseline
  refine ⟨fun key => ⟨fun hafter hbefore => ?_, fun hbefore hafter => ?_⟩, Explains.refl _ _,
    fun key => Or.inr Iff.rfl, fun shape hshape hlog hevent => ?_⟩
  · refine hcovered _ ((hdifferences key).1 hafter hbefore) fun hnew => ?_
    exact hnew.1 rfl hafter
  · refine ((hdifferences key).2 hbefore hafter).imp (fun hmem => hcovered _ hmem fun hnew => ?_)
      fun hmem => hcovered _ hmem fun hnew => ?_
    · exact absurd (hnew.2 hafter) (by simp)
    · exact absurd (hnew.2 hafter) (by simp)
  · by_contra hold
    exact (hcovered shape hshape hold).elim hlog hevent

omit [DecidableEq F] in
theorem mem_events_foldl {events : List (PartitionChange F)} {store : PartitionStore F ι}
    {event : ι} :
    event ∈ (events.foldl (fun store change => store.writeEvent (eventId change.shape))
      store).events ↔ event ∈ store.events ∨ ∃ c ∈ events, eventId c.shape = event := by
  induction events generalizing store with
  | nil => simp
  | cons c events ih =>
    have hone : event ∈ (store.writeEvent (eventId c.shape)).events ↔
        event ∈ store.events ∨ eventId c.shape = event := by
      unfold PartitionStore.writeEvent
      dsimp only
      split_ifs with hold
      · refine ⟨Or.inl, ?_⟩
        rintro (hmem | rfl)
        · exact hmem
        · exact hold
      · rw [List.mem_append, List.mem_singleton, eq_comm (a := event)]
    rw [List.foldl_cons, ih, hone, or_assoc]
    simp only [List.mem_cons, or_and_right, exists_or, exists_eq_left]

omit [DecidableEq F] in
theorem edges_foldl {events : List (PartitionChange F)} {store : PartitionStore F ι} :
    (events.foldl (fun store change => store.writeEvent (eventId change.shape)) store).edges =
      store.edges := by
  induction events generalizing store with
  | nil => rfl
  | cons c events ih => exact ih

omit [DecidableEq F] in
/-- What is in the log after a plan is written. -/
theorem mem_events_write {events : List (PartitionChange F)}
    {edges : Option (List (PartitionEdge F))} {store : PartitionStore F ι} {event : ι} :
    event ∈ (store.write eventId events edges).events ↔
      event ∈ store.events ∨ ∃ c ∈ events, eventId c.shape = event := by
  unfold PartitionStore.write
  rw [mem_events_foldl]
  cases edges <;> rfl

omit [DecidableEq F] in
/-- What is persisted after a plan is written. -/
theorem edges_write {events : List (PartitionChange F)}
    {edges : Option (List (PartitionEdge F))} {store : PartitionStore F ι} :
    (store.write eventId events edges).edges = edges.elim store.edges some := by
  unfold PartitionStore.write
  rw [edges_foldl]
  cases edges <;> rfl

omit [DecidableEq F] in
/-- **The COMMIT of a plan.** -/
theorem Kept.commit (h : r.Kept polls eventId) {plan : PartitionPlan F} (hplan : r.plan = some plan)
    (hcommitted : plan.committed = false) :
    Kept polls eventId { r with
      store := r.store.write eventId plan.events plan.edges
      plan := some { plan with committed := true } } := by
  have hplanned := h.planned plan hplan
  have hlog : ∀ shape, eventId shape ∉ (r.store.write eventId plan.events plan.edges).events →
      ¬ r.Logged eventId shape ∧
        ¬ ∃ change ∈ plan.events, eventId change.shape = eventId shape := by
    intro shape hmem
    rw [mem_events_write, not_or] at hmem
    exact hmem
  refine ⟨fun hnone => ?_, h.coupled, h.named, fun hsome shape hshape hmem => ?_,
    fun hsome shape hshape hmem => ?_, fun hsome => ?_, fun p hp => ?_⟩
  · have hfresh := h.fresh hnone
    have hedges : plan.edges = none := by
      by_contra hne
      have := hplanned.baseline (Option.ne_none_iff_isSome.1 hne)
      rw [hnone] at this
      cases this
    refine ⟨?_, hfresh.changes, hfresh.clean, hfresh.unconfirmed, hfresh.sight⟩
    rw [edges_write, hedges]
    exact hfresh.edges
  · exact h.pending hsome shape hshape (hlog shape hmem).1
  · obtain ⟨hold, hevent⟩ := hlog shape hmem
    show shape.New (((r.store.write eventId plan.events plan.edges).edges).elim r.adopted
      fun edges => (edgesByKey edges).edges)
    rw [edges_write]
    cases hedges : plan.edges with
    | none => exact h.new hsome shape hshape hold
    | some edges => exact (hplanned.carries hcommitted edges hedges).new shape hshape hold hevent
  · show Explains _ (((r.store.write eventId plan.events plan.edges).edges).elim r.adopted
      fun edges => (edgesByKey edges).edges) _
    rw [edges_write]
    cases hedges : plan.edges with
    | none => exact h.differences hsome
    | some edges => exact (hplanned.carries hcommitted edges hedges).later
  · obtain rfl := Option.some.inj hp
    refine ⟨hplanned.named, hplanned.baseline, fun _ planned hmem => ?_, fun hfalse => ?_⟩
    · exact mem_events_write.2 (Or.inr ⟨planned, hmem, rfl⟩)
    · cases hfalse

omit [DecidableEq F] [DecidableEq ι] in
/-- **A new process**, when the persisted snapshot has no transition that is not committed. -/
theorem kept_load {store : PartitionStore F ι} {adopted : Finset EdgeKey}
    {confirmed : List TransitionShape} (serial : ℕ)
    (h : ∀ edges, store.edges = some edges → ∀ shape ∈ confirmed, eventId shape ∉ store.events →
      shape.New (edgesByKey edges).edges) :
    Kept polls eventId
      { watch := PartitionWatch.load store.edges serial
        store := store
        adopted := adopted
        confirmed := confirmed } := by
  cases hedges : store.edges with
  | none =>
    refine ⟨fun _ => ⟨hedges, rfl, rfl, fun _ => rfl, rfl⟩, fun hsome => ?_,
      List.forall_mem_nil _, fun hsome => ?_, fun hsome => ?_, fun hsome => ?_,
      fun plan hplan => ?_⟩
    · cases hsome
    · cases hsome
    · cases hsome
    · cases hsome
    · cases hplan
  | some edges =>
    have hdurable : store.edges.elim adopted (fun edges => (edgesByKey edges).edges) =
        (edgesByKey edges).edges := by
      rw [hedges]
      rfl
    refine ⟨fun hnone => ?_, fun _ => ⟨{
        watch := .load (some edges) serial
        baseline := (edgesByKey edges).edges }, rfl, ?_⟩, List.forall_mem_nil _,
      fun _ shape hshape hlog => ?_, fun _ shape hshape hlog => ?_, fun _ => ?_,
      fun plan hplan => ?_⟩
    · cases hnone
    · refine ⟨rfl, TopologyRun.keyed_edgesByKey edges, fun shape c hc => ?_,
        List.forall_mem_nil _, List.forall_mem_nil _, List.forall_mem_nil _, eachAfter_nil, rfl⟩
      cases hc
    · refine Or.inr ⟨h edges hedges shape hshape hlog, fun g hg => ?_⟩
      cases hg
    · show shape.New (store.edges.elim adopted fun edges => (edgesByKey edges).edges)
      rw [hdurable]
      exact h edges hedges shape hshape hlog
    · show Explains _ (store.edges.elim adopted fun edges => (edgesByKey edges).edges)
        (edgesByKey edges).edges
      rw [hdurable]
      exact Explains.refl _ _
    · cases hplan

omit [DecidableEq F] [DecidableEq ι] in
/-- What is durable is what is persisted. -/
theorem durable_eq {edges : List (PartitionEdge F)} (h : r.store.edges = some edges) :
    r.durable = (edgesByKey edges).edges := by
  rw [durable, h]
  rfl

omit [DecidableEq F] [DecidableEq ι] in
theorem Kept.restart (h : r.Kept polls eventId) :
    Kept polls eventId { r with
      watch := .load r.store.edges r.watch.nextSerial
      plan := none
      sight := none } := by
  refine kept_load _ fun edges hedges shape hshape hlog => ?_
  have hbaseline : r.watch.baselineInitialized = true := by
    by_contra hnone
    have hnil := (h.fresh (Bool.not_eq_true _ ▸ hnone)).edges
    rw [hedges] at hnil
    cases hnil
  rw [← durable_eq hedges]
  exact h.new hbaseline shape hshape hlog

omit [DecidableEq F] in
/-- A live change whose position has been passed is due. -/
theorem mem_dueChanges {c : PartitionChange F} {durableLsn : ℕ} {w : PartitionWatch F}
    (hc : c ∈ w.changes) (hlive : c.state.isLive = true) (hlsn : c.detectedLsn ≤ durableLsn) :
    { c with state := .due } ∈ w.dueChanges durableLsn := by
  refine List.mem_filter.2 ⟨List.mem_map.2 ⟨c, hc, ?_⟩, ?_⟩
  · rw [hlive, if_pos hlsn]
    rfl
  · simp [ChangeState.isLive, hlsn]

/-- A plan begins. -/
theorem Kept.step_due (h : r.Kept polls eventId) (durableLsn : ℕ) :
    (r.step order polls eventId (.due durableLsn)).Kept polls eventId := by
  unfold PartitionRun.step
  dsimp only
  cases hplan : r.plan with
  | some plan => exact h
  | none =>
    have hdue : Kept polls eventId { r with watch := r.watch.due durableLsn } := by
      refine h.rewatch rfl rfl rfl rfl (fun _ => rfl) (fun c hc => ?_) fun c hc hlive _ => ?_
      · obtain ⟨c', hc', rfl⟩ := List.mem_map.1 hc
        refine ⟨c', hc', ?_⟩
        split_ifs
        · exact ⟨rfl, rfl, rfl⟩
        · exact ⟨rfl, rfl, rfl⟩
        · exact ⟨rfl, rfl, rfl⟩
      · refine ⟨_, List.mem_map_of_mem hc, ?_⟩
        rw [hlive, Bool.not_true, if_neg Bool.false_ne_true]
        split_ifs
        · exact ⟨rfl, rfl⟩
        · exact ⟨rfl, rfl⟩
    refine hdue.replan fun p hp => ?_
    obtain rfl := Option.some.inj hp
    refine ⟨fun planned hmem => ?_, fun hsome => ?_, fun hfalse => ?_, fun _ edges hedges => ?_⟩
    · have hchange := (List.mem_filter.1 hmem).1
      refine ⟨?_, fun c hc heq => hdue.named c hc planned hchange heq⟩
      by_cases hbaseline : r.watch.baselineInitialized = true
      · obtain ⟨t, ht, hcoupled⟩ := hdue.coupled hbaseline
        dsimp only at ht ⊢
        rw [← ht] at hchange ⊢
        exact hcoupled.serials planned hchange
      · have hnil := (hdue.fresh (Bool.not_eq_true _ ▸ hbaseline)).changes
        dsimp only at hnil
        rw [hnil] at hchange
        cases hchange
    · cases hsome
    · cases hfalse
    · cases hedges

/-- The snapshot of a plan. -/
theorem Kept.step_snapshotForPlan (h : r.Kept polls eventId) :
    (r.step order polls eventId .snapshotForPlan).Kept polls eventId := by
  unfold PartitionRun.step
  dsimp only
  cases hplan : r.plan with
  | none => exact h
  | some plan =>
    dsimp only
    by_cases hcommitted : plan.committed = true
    · rw [if_pos hcommitted]
      exact h
    · rw [if_neg hcommitted]
      refine h.replan fun p hp => ?_
      obtain rfl := Option.some.inj hp
      have hplanned := h.planned plan hplan
      have htaken (edges : List (PartitionEdge F))
          (hedges : r.watch.snapshotForPlan plan.events = some edges) :
          edges = r.watch.stable.values ∧ r.watch.baselineInitialized = true ∧
            ∀ c ∈ r.watch.changes, c.state.isLive →
              ∃ planned ∈ plan.events, planned.shape = c.shape := by
        unfold PartitionWatch.snapshotForPlan at hedges
        split_ifs at hedges with hdirty hunconfirmed hlive
        refine ⟨(Option.some.inj hedges).symm, ?_, fun c hc hl => ?_⟩
        · by_contra hnone
          rw [(h.fresh (Bool.not_eq_true _ ▸ hnone)).clean] at hdirty
          exact hdirty rfl
        · rw [Bool.not_eq_true, List.any_eq_false] at hlive
          have hc' := hlive c hc
          rw [hl, Bool.true_and, Bool.not_eq_true', Bool.not_eq_false, List.any_eq_true] at hc'
          obtain ⟨planned, hmem, hsame⟩ := hc'
          refine ⟨planned, hmem, ?_⟩
          exact ((hplanned.named planned hmem).2 c hc (of_decide_eq_true hsame).symm).symm
      refine ⟨hplanned.named, fun hsome => ?_, hplanned.logged, fun _ edges hedges => ?_⟩
      · obtain ⟨edges, hedges⟩ := Option.isSome_iff_exists.1 hsome
        exact (htaken edges hedges).2.1
      · obtain ⟨rfl, hbaseline, hlive⟩ := htaken edges hedges
        exact h.carries hbaseline hlive

/-- The snapshot of a flush. -/
theorem Kept.step_snapshotForFlush (h : r.Kept polls eventId) :
    (r.step order polls eventId .snapshotForFlush).Kept polls eventId := by
  unfold PartitionRun.step
  dsimp only
  cases hplan : r.plan with
  | some plan => exact h
  | none =>
    cases hedges : r.watch.snapshotForFlush with
    | none => exact h
    | some edges =>
      dsimp only
      unfold PartitionWatch.snapshotForFlush at hedges
      split_ifs at hedges with hdirty hlive
      obtain rfl := Option.some.inj hedges
      have hbaseline : r.watch.baselineInitialized = true := by
        by_contra hnone
        rw [(h.fresh (Bool.not_eq_true _ ▸ hnone)).clean] at hdirty
        exact hdirty rfl
      refine h.replan fun p hp => ?_
      obtain rfl := Option.some.inj hp
      refine ⟨List.forall_mem_nil _, fun _ => hbaseline, fun hfalse => ?_,
        fun _ edges hedges => ?_⟩
      · cases hfalse
      · obtain rfl := Option.some.inj hedges
        refine h.carries hbaseline fun c hc hl => ?_
        rw [Bool.not_eq_true, List.any_eq_false] at hlive
        exact absurd hl (hlive c hc)

/-- A committed plan is settled. -/
theorem Kept.step_settle (h : r.Kept polls eventId) :
    (r.step order polls eventId .settle).Kept polls eventId := by
  unfold PartitionRun.step
  dsimp only
  cases hplan : r.plan with
  | none => exact h
  | some plan =>
    dsimp only
    by_cases hcommitted : plan.committed = true
    · rw [if_pos hcommitted]
      have hplanned := h.planned plan hplan
      have hsettled : ∀ c ∈ r.watch.changes, c.state.isLive → ¬ r.Logged eventId c.shape →
          c ∈ (r.watch.settle (plan.events.map PartitionChange.serial)).changes := by
        intro c hc _ hlog
        refine List.mem_filter.2 ⟨hc, ?_⟩
        by_contra hgone
        simp only [Bool.not_eq_true, Bool.not_eq_false', Bool.and_eq_true,
          decide_eq_true_eq] at hgone
        obtain ⟨planned, hmem, hsame⟩ := List.mem_map.1 hgone.1
        refine hlog ?_
        rw [(hplanned.named planned hmem).2 c hc hsame.symm]
        exact hplanned.logged hcommitted planned hmem
      have hwatch : Kept polls eventId { r with
          watch := plan.edges.elim (r.watch.settle (plan.events.map PartitionChange.serial))
            fun edges => (r.watch.settle (plan.events.map
              PartitionChange.serial)).markPersisted edges } := by
        cases hedges : plan.edges with
        | none =>
          exact h.rewatch rfl rfl rfl rfl (fun _ => rfl)
            (fun c hc => ⟨c, (List.mem_filter.1 hc).1, rfl, rfl, rfl⟩)
            fun c hc hl hlog => ⟨c, hsettled c hc hl hlog, hl, rfl⟩
        | some edges =>
          have hbaseline := hplanned.baseline (by rw [hedges]; rfl)
          refine h.rewatch rfl rfl rfl rfl (fun hnone => ?_)
            (fun c hc => ⟨c, (List.mem_filter.1 hc).1, rfl, rfl, rfl⟩)
            fun c hc hl hlog => ⟨c, hsettled c hc hl hlog, hl, rfl⟩
          rw [hbaseline] at hnone
          cases hnone
      refine hwatch.replan fun p hp => ?_
      cases hp
    · rw [if_neg hcommitted]
      exact h

/-- **One step.** -/
theorem Kept.step (h : r.Kept polls eventId) {next : PartitionStep F}
    (hnext : r.Preserving eventId next) :
    (r.step order polls eventId next).Kept polls eventId := by
  cases next with
  | observe observation observed =>
    cases hread : r.watch.read observation observed with
    | error reason =>
      have hstep : r.step order polls eventId (.observe observation observed) =
          { r with watch := r.watch.reject observation reason } := by
        unfold PartitionRun.step PartitionWatch.compare
        dsimp only
        rw [hread]
      rw [hstep]
      exact h.rewatch rfl rfl rfl rfl (fun _ => rfl) (fun c hc => ⟨c, hc, rfl, rfl, rfl⟩)
        fun c hc hlive _ => ⟨c, hc, hlive, rfl⟩
    | ok current =>
      have hcond := hnext current hread
      by_cases hbaseline : r.watch.baselineInitialized = true
      · rw [if_pos hbaseline] at hcond
        exact h.observe hread hbaseline hcond.1 hcond.2
      · rw [if_neg hbaseline] at hcond
        exact h.adopt hread (Bool.not_eq_true _ ▸ hbaseline) hcond
  | mark =>
    refine h.rewatch rfl rfl rfl rfl (fun _ => rfl) (fun c hc => ?_) fun c hc hlive _ => ?_
    · obtain ⟨c', hc', rfl⟩ := List.mem_map.1 hc
      refine ⟨c', hc', ?_⟩
      split_ifs
      · exact ⟨rfl, rfl, rfl⟩
      · exact ⟨rfl, rfl, rfl⟩
    · refine ⟨_, List.mem_map_of_mem hc, ?_⟩
      split_ifs
      · exact ⟨rfl, rfl⟩
      · exact ⟨hlive, rfl⟩
  | due durableLsn => exact h.step_due durableLsn
  | snapshotForPlan => exact h.step_snapshotForPlan
  | snapshotForFlush => exact h.step_snapshotForFlush
  | commit =>
    unfold PartitionRun.step
    dsimp only
    cases hplan : r.plan with
    | none => exact h
    | some plan =>
      dsimp only
      by_cases hcommitted : plan.committed = true
      · rw [if_pos hcommitted]
        exact h
      · rw [if_neg hcommitted]
        exact h.commit hplan (Bool.not_eq_true _ ▸ hcommitted)
  | settle => exact h.step_settle
  | rollback =>
    unfold PartitionRun.step
    dsimp only
    cases hplan : r.plan with
    | none => exact h
    | some plan =>
      dsimp only
      by_cases hcommitted : plan.committed = true
      · rw [if_pos hcommitted]
        exact h
      · rw [if_neg hcommitted]
        refine h.replan fun p hp => ?_
        cases hp
  | restart => exact h.restart

end Steps

/-! ### Runs -/

section Runs

variable {order : EdgeKey → EdgeKey → Bool} {polls : ℕ} {eventId : TransitionShape → ι}
  {store : PartitionStore F ι}

theorem run_concat (steps : List (PartitionStep F)) (next : PartitionStep F) :
    run order polls eventId store (steps ++ [next]) =
      (run order polls eventId store steps).step order polls eventId next :=
  List.foldl_append

/-- The condition on a run: it holds of every step in the state before it. Only accepted
observations are restricted; plans, flushes, commits, rollbacks and restarts may stand anywhere. -/
def PreservingRun (order : EdgeKey → EdgeKey → Bool) (polls : ℕ) (eventId : TransitionShape → ι)
    (store : PartitionStore F ι) (steps : List (PartitionStep F)) : Prop :=
  EachAfter (fun before next => (run order polls eventId store before).Preserving eventId next)
    steps

omit [DecidableEq F] [DecidableEq ι] in
theorem kept_start : (start store).Kept polls eventId :=
  kept_load 0 fun _ _ => List.forall_mem_nil _

theorem kept_run {steps : List (PartitionStep F)}
    (h : PreservingRun order polls eventId store steps) :
    (run order polls eventId store steps).Kept polls eventId := by
  induction steps using List.reverseRecOn with
  | nil => exact kept_start
  | append_singleton steps next ih =>
    obtain ⟨hsteps, hnext⟩ := eachAfter_append_singleton.1 h
    rw [run_concat]
    exact (ih hsteps).step hnext

/-- What a step writes. -/
theorem Kept.writesLogged {r : PartitionRun F ι} (h : r.Kept polls eventId)
    (next : PartitionStep F) : r.WritesLogged eventId (r.step order polls eventId next) := by
  have hsame {next : PartitionRun F ι} (hstore : next.store = r.store) :
      r.WritesLogged eventId next := by
    intro edges hedges
    rw [hstore] at hedges
    rw [durable_eq hedges]
    exact Explains.refl _ _
  cases next with
  | observe observation observed =>
    unfold PartitionRun.step
    dsimp only
    split
    · exact hsame rfl
    · exact hsame rfl
  | mark => exact hsame rfl
  | due durableLsn =>
    unfold PartitionRun.step
    dsimp only
    split
    · exact hsame rfl
    · exact hsame rfl
  | snapshotForPlan =>
    unfold PartitionRun.step
    dsimp only
    split
    · split_ifs
      · exact hsame rfl
      · exact hsame rfl
    · exact hsame rfl
  | snapshotForFlush =>
    unfold PartitionRun.step
    dsimp only
    split
    · exact hsame rfl
    · exact hsame rfl
  | commit =>
    unfold PartitionRun.step
    dsimp only
    cases hplan : r.plan with
    | none => exact hsame rfl
    | some plan =>
      dsimp only
      by_cases hcommitted : plan.committed = true
      · rw [if_pos hcommitted]
        exact hsame rfl
      · rw [if_neg hcommitted]
        intro edges hedges
        dsimp only at hedges
        rw [edges_write] at hedges
        cases hcarried : plan.edges with
        | none =>
          rw [hcarried] at hedges
          rw [durable_eq hedges]
          exact Explains.refl _ _
        | some carried =>
          rw [hcarried] at hedges
          obtain rfl := Option.some.inj hedges
          have hcarries := (h.planned plan hplan).carries (Bool.not_eq_true _ ▸ hcommitted)
            carried hcarried
          exact hcarries.logged.mono fun shape hshape => mem_events_write.2 hshape
  | settle =>
    unfold PartitionRun.step
    dsimp only
    split
    · split_ifs
      · exact hsame rfl
      · exact hsame rfl
    · exact hsame rfl
  | rollback =>
    unfold PartitionRun.step
    dsimp only
    split
    · split_ifs
      · exact hsame rfl
      · exact hsame rfl
    · exact hsame rfl
  | restart => exact hsame rfl

/-- **A queued change is committed** by a plan whose position has passed its own. -/
theorem logged_of_due {steps : List (PartitionStep F)} {c : PartitionChange F} {durableLsn : ℕ}
    (hc : c ∈ (run order polls eventId store steps).watch.changes) (hlive : c.state.isLive = true)
    (hplan : (run order polls eventId store steps).plan = none)
    (hlsn : c.detectedLsn ≤ durableLsn) :
    (run order polls eventId store (steps ++ [.due durableLsn, .snapshotForPlan,
      .commit])).Logged eventId c.shape := by
  have hdue := mem_dueChanges hc hlive hlsn
  have hrun : run order polls eventId store (steps ++ [.due durableLsn, .snapshotForPlan,
      .commit]) = (((run order polls eventId store steps).step order polls eventId
        (.due durableLsn)).step order polls eventId .snapshotForPlan).step order polls eventId
          .commit := List.foldl_append
  rw [hrun]
  simp only [step, hplan, Bool.false_eq_true, if_false]
  exact mem_events_write.2 (Or.inr ⟨_, hdue, rfl⟩)

/-- **Partition facts are durable exactly once** in a run whose steps meet the condition. -/
theorem durableOnce_run (order : EdgeKey → EdgeKey → Bool) (polls : ℕ)
    (eventId : TransitionShape → ι) (store : PartitionStore F ι) (steps : List (PartitionStep F))
    (h : PreservingRun order polls eventId store steps) :
    DurableOnce order polls eventId store steps := by
  refine ⟨?_, fun shape hshape => ?_, fun c hc hlive hplan durableLsn hlsn =>
    logged_of_due hc hlive hplan hlsn⟩
  · induction steps using List.reverseRecOn with
    | nil => exact eachAfter_nil
    | append_singleton steps next ih =>
      obtain ⟨hsteps, -⟩ := eachAfter_append_singleton.1 h
      exact eachAfter_append_singleton.2 ⟨ih hsteps, (kept_run hsteps).writesLogged next⟩
  · have hkept : (run order polls eventId store steps).Kept polls eventId := kept_run h
    by_cases hlog : (run order polls eventId store steps).Logged eventId shape
    · exact Or.inl (List.count_eq_one_of_mem (run order polls eventId store steps).store.nodup hlog)
    · refine Or.inr ⟨List.count_eq_zero.2 hlog, ?_⟩
      by_cases hbaseline :
          (run order polls eventId store steps).watch.baselineInitialized = true
      · exact (hkept.pending hbaseline shape hshape hlog).imp_right And.right
      · have hfresh := hkept.fresh (Bool.not_eq_true _ ▸ hbaseline)
        refine Or.inr fun g hg => ?_
        rw [hfresh.sight] at hg
        cases hg

end Runs

end PartitionRun

namespace Accounts

/-- The empty destination. -/
def noFacts : PartitionStore Unit TransitionShape := {}

/-- An observation of some partitions of the accounts. -/
def seeing (children : List String) : PartitionStep Unit :=
  .observe (observing children) accountRelations

/-- A partition is attached, confirmed and committed, and a crash follows. -/
def attachedAndCommitted : List (PartitionStep Unit) :=
  [seeing [], seeing ["public.accounts_a"], .due 10, .snapshotForPlan, .commit, .restart]

/-- A partition is attached and confirmed, not seen once, and seen again; what is stable then is
flushed. -/
def attachedAndUndone : List (PartitionStep Unit) :=
  [seeing [], seeing ["public.accounts_a"], seeing ["public.accounts_a"], seeing [],
    seeing ["public.accounts_a"], .snapshotForFlush, .commit]

/-- Nothing is undone when nothing was confirmed, and what is stable is durable. -/
private theorem preserving_seeing {r : PartitionRun Unit TransitionShape} (children : List String)
    (hconfirmed : r.confirmed = [])
    (hstable : r.watch.baselineInitialized = true → r.watch.stable.edges = r.durable) :
    r.Preserving id (seeing children) := by
  intro current hread
  rw [hconfirmed]
  by_cases hbaseline : r.watch.baselineInitialized = true
  · rw [if_pos hbaseline]
    refine ⟨List.forall_mem_nil _, fun key => Or.inl ?_⟩
    rw [hstable hbaseline]
  · rw [if_neg hbaseline]
    exact List.forall_mem_nil _

theorem durableOnce_attachedAndCommitted :
    PartitionRun.DurableOnce byChild 1 id noFacts attachedAndCommitted := by
  refine PartitionRun.durableOnce_run byChild 1 id noFacts attachedAndCommitted ?_
  refine eachAfter_cons.2 ⟨?_, eachAfter_cons.2 ⟨?_, ?_⟩⟩
  · refine preserving_seeing [] rfl fun hbaseline => ?_
    cases hbaseline
  · exact preserving_seeing ["public.accounts_a"] rfl fun _ => by rfl
  · exact eachAfter_cons.2 ⟨trivial, eachAfter_cons.2 ⟨trivial, eachAfter_cons.2 ⟨trivial,
      eachAfter_cons.2 ⟨trivial, eachAfter_nil⟩⟩⟩⟩

/-- **A transition that was undone for one observation is persisted and never committed.** -/
theorem not_durableOnce_attachedAndUndone :
    ¬ PartitionRun.DurableOnce byChild 2 id noFacts attachedAndUndone := by
  intro h
  have hwrites := h.logged attachedAndUndone.dropLast .commit [] rfl
  have hkey := (hwrites [partitionOf "public.accounts_a"] rfl
    (partitionOf "public.accounts_a").key).1 (by decide) (by decide)
  unfold PartitionRun.Logged at hkey
  revert hkey
  decide

end Accounts

end CdcFlight
