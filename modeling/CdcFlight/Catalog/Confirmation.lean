import CdcFlight.Catalog.Partitions

/-!
# Confirmed partition transitions

What the watcher makes of a run of topology observations. A transition is a difference between the
stable snapshot and the observed topology. It is queued when it has been seen often enough in a row;
but the watcher forgets the transitions that are confirmed while others still wait, and a queued
transition that is undone before it is applied is superseded although the stable snapshot has moved.

## Main definitions

* `CdcFlight.TopologyRun`: a run, with what was seen and queued.
* `CdcFlight.TopologyRun.Sound`: what holds in every state.
* `CdcFlight.TopologyRun.Orderly`: the condition on a step.

## Main results

* `CdcFlight.TopologyRun.confirming_run`: the runs in which the confirmation does what it is for.
-/

namespace CdcFlight

open Lib

variable {F : Type}

/-! ### Transitions -/

/-- An accepted observation: the edges of the stable snapshot and of the topology, and the
relations. -/
structure Sighting where
  stable : Finset EdgeKey
  edges : Finset EdgeKey
  relations : Finset String

/-- The transition is a difference between the stable snapshot and the topology. -/
def Sighting.Shows (g : Sighting) (shape : TransitionShape) : Prop :=
  match shape.kind with
  | .attached => shape.key ∈ g.edges ∧ shape.key ∉ g.stable
  | .detached => shape.key ∈ g.stable ∧ shape.key ∉ g.edges ∧ shape.key.child ∈ g.relations
  | .dropped => shape.key ∈ g.stable ∧ shape.key ∉ g.edges ∧ shape.key.child ∉ g.relations

/-- The transition is a difference in each of the last `n` sightings. -/
def ShownLast (seen : List Sighting) (shape : TransitionShape) (n : ℕ) : Prop :=
  ∃ recent, recent <:+ seen ∧ recent.length = n ∧ ∀ g ∈ recent, g.Shows shape

theorem ShownLast.push {seen : List Sighting} {shape : TransitionShape} {n : ℕ} {g : Sighting}
    (h : ShownLast seen shape n) (hg : g.Shows shape) : ShownLast (seen ++ [g]) shape (n + 1) := by
  obtain ⟨recent, ⟨earlier, rfl⟩, rfl, hrecent⟩ := h
  refine ⟨recent ++ [g], ⟨earlier, by rw [List.append_assoc]⟩, by simp, fun g' hg' => ?_⟩
  rcases List.mem_append.1 hg' with hg' | hg'
  · exact hrecent g' hg'
  · rw [List.mem_singleton.1 hg']
    exact hg

theorem shownLast_zero (seen : List Sighting) (shape : TransitionShape) :
    ShownLast seen shape 0 :=
  ⟨[], List.nil_suffix, rfl, List.forall_mem_nil _⟩

/-- The transition changes a set of edges. -/
def TransitionShape.New (shape : TransitionShape) (edges : Finset EdgeKey) : Prop :=
  shape.kind = .attached ↔ shape.key ∉ edges

/-- The edges after a transition. -/
def TransitionShape.apply (edges : Finset EdgeKey) (shape : TransitionShape) : Finset EdgeKey :=
  if shape.kind = .attached then insert shape.key edges else edges.erase shape.key

/-- The edges after some transitions, one after the other. -/
def replay (baseline : Finset EdgeKey) (shapes : List TransitionShape) : Finset EdgeKey :=
  shapes.foldl TransitionShape.apply baseline

@[simp] theorem replay_nil (edges : Finset EdgeKey) : replay edges [] = edges := rfl

theorem replay_cons (edges : Finset EdgeKey) (shape : TransitionShape)
    (shapes : List TransitionShape) :
    replay edges (shape :: shapes) = replay (shape.apply edges) shapes := rfl

theorem replay_append (baseline : Finset EdgeKey) (shapes more : List TransitionShape) :
    replay baseline (shapes ++ more) = replay (replay baseline shapes) more :=
  List.foldl_append

section Replay

variable {S : Finset EdgeKey} {shapes : List TransitionShape} {x : EdgeKey}

/-- A transition leaves the other edges alone. -/
theorem TransitionShape.mem_apply_of_ne {shape : TransitionShape} (h : x ≠ shape.key) :
    x ∈ shape.apply S ↔ x ∈ S := by
  unfold TransitionShape.apply
  split_ifs
  · simp [h]
  · simp [h]

theorem mem_replay_of_notMem (h : x ∉ shapes.map TransitionShape.key) :
    x ∈ replay S shapes ↔ x ∈ S := by
  induction shapes generalizing S with
  | nil => rfl
  | cons shape shapes ih =>
    rw [List.map_cons, List.mem_cons, not_or] at h
    rw [replay_cons, ih h.2, TransitionShape.mem_apply_of_ne h.1]

/-- The last word on an edge is that of the transition about it. -/
theorem mem_replay_of_mem (hnodup : (shapes.map TransitionShape.key).Nodup)
    {shape : TransitionShape} (hshape : shape ∈ shapes) :
    shape.key ∈ replay S shapes ↔ shape.kind = .attached := by
  obtain ⟨before, after, rfl⟩ := List.append_of_mem hshape
  rw [List.map_append, List.map_cons, List.nodup_append] at hnodup
  have hafter : shape.key ∉ after.map TransitionShape.key := (List.nodup_cons.1 hnodup.2.1).1
  rw [replay_append, replay_cons, mem_replay_of_notMem hafter, TransitionShape.apply]
  split_ifs with hkind
  · simp [hkind]
  · simp [hkind]

/-- Transitions about different edges do not get into each other's way. -/
theorem eachAfter_new (hnodup : (shapes.map TransitionShape.key).Nodup)
    (hnew : ∀ shape ∈ shapes, shape.New S) :
    EachAfter (fun before shape => shape.New (replay S before)) shapes := by
  intro before shape after hshapes
  subst hshapes
  rw [List.map_append, List.map_cons] at hnodup
  have hbefore : shape.key ∉ before.map TransitionShape.key := by
    intro hmem
    exact (List.nodup_append.1 hnodup).2.2 _ hmem _ List.mem_cons_self rfl
  have h := hnew shape (List.mem_append_right _ List.mem_cons_self)
  rw [TransitionShape.New] at h ⊢
  rw [mem_replay_of_notMem hbefore]
  exact h

end Replay

/-! ### Runs -/

/-- What happens to the watcher. -/
inductive WatchStep (F : Type)
  | observe (observation : TopologyObservation F) (observed : ObservedRelations)
  | mark
  | due (durableLsn : ℕ)
  | settle (serials : List ℕ)

/-- A queued change, with what had been seen by then. -/
structure QueuedTransition (F : Type) where
  change : PartitionChange F
  seen : List Sighting

/-- A run, with what was seen and queued and the changes that were superseded. -/
structure TopologyRun (F : Type) where
  watch : PartitionWatch F
  baseline : Finset EdgeKey
  seen : List Sighting := []
  queued : List (QueuedTransition F) := []
  superseded : List ℕ := []

/-- `{edge.edge_key: edge for edge in edges}`. -/
def edgesByKey (edges : List (PartitionEdge F)) : Topology F :=
  edges.foldl (fun topology edge => topology.set edge.key edge) ∅

/-- The keys of a dictionary. -/
def Topology.edges (t : Topology F) : Finset EdgeKey := t.keys.toFinset

/-- What the watcher sees. -/
def PartitionWatch.sighting (s : PartitionWatch F) (current : Topology F)
    (observed : ObservedRelations) : Sighting where
  stable := s.stable.edges
  edges := current.edges
  relations := observed.keys.toFinset

namespace TopologyRun

variable [DecidableEq F] (order : EdgeKey → EdgeKey → Bool) (polls : ℕ)

/-- `max(1, confirm_polls)`. -/
def confirmPolls (polls : ℕ) : ℕ := max 1 polls

/-- The watcher takes up its work with a snapshot of the topology. -/
def start (baseline : List (PartitionEdge F)) : TopologyRun F where
  watch :=
    { stable := edgesByKey baseline
      persistedEdges := edgesByKey baseline
      baselineInitialized := true
      persistedInitialized := true }
  baseline := (edgesByKey baseline).edges

/-- One step. -/
def step (r : TopologyRun F) : WatchStep F → TopologyRun F
  | .observe observation observed =>
    let next := r.watch.compare order (confirmPolls polls) observation observed
    match r.watch.read observation observed with
    | .error _ => { r with watch := next }
    | .ok current =>
      let seen := r.seen ++ [r.watch.sighting current observed]
      { r with
        watch := next
        seen := seen
        queued := r.queued ++ (next.changes.filter (r.watch.nextSerial ≤ ·.serial)).map (⟨·, seen⟩)
        superseded := r.superseded ++ (r.watch.changes.filter fun change =>
          change.state.isLive && !change.shape.holds current observed).map PartitionChange.serial }
  | .mark => { r with watch := r.watch.mark }
  | .due durableLsn => { r with watch := r.watch.due durableLsn }
  | .settle serials => { r with watch := r.watch.settle serials }

/-- A run from a baseline. -/
def run (baseline : List (PartitionEdge F)) (steps : List (WatchStep F)) : TopologyRun F :=
  steps.foldl (step order polls) (start baseline)

/-- **What holds in every state**: every queued change was a difference in as many accepted
observations in a row as are asked for, and is queued once; and the stable snapshot is the baseline
with the queued changes that were not superseded. -/
structure Sound (r : TopologyRun F) : Prop where
  confirmed : ∀ q ∈ r.queued, q.seen <+: r.seen ∧
    ShownLast q.seen q.change.shape (confirmPolls polls)
  once : EachAfter (fun before q => q.change.shape.New
    (replay r.baseline (before.map (·.change.shape)))) r.queued
  stable : r.watch.stable.edges = replay r.baseline
    ((r.queued.filter (·.change.serial ∉ r.superseded)).map (·.change.shape))

/-- How often a transition has been seen before, in a row. -/
def streak (r : TopologyRun F) (shape : TransitionShape) : ℕ :=
  (r.watch.unconfirmed.get? shape).elim 0 PartitionChange.confirmations

/-- **The condition**: an observation undoes no live change, and the transitions it shows are
confirmed all at once or not at all. -/
def Orderly (r : TopologyRun F) : WatchStep F → Prop
  | .observe observation observed => ∀ current, r.watch.read observation observed = .ok current →
      (∀ change ∈ r.watch.changes, change.state.isLive → change.shape.holds current observed) ∧
      ∀ shape shape', (r.watch.sighting current observed).Shows shape →
        (r.watch.sighting current observed).Shows shape' →
        confirmPolls polls ≤ r.streak shape + 1 → confirmPolls polls ≤ r.streak shape' + 1
  | _ => True

end TopologyRun

/-! ### One observation -/

section Observation

variable [DecidableEq F] {order : EdgeKey → EdgeKey → Bool} {observation : TopologyObservation F}
  {observed : ObservedRelations} {current : Topology F} {s : PartitionWatch F}

omit [DecidableEq F] in
@[simp] theorem Topology.mem_edges {t : Topology F} {key : EdgeKey} :
    key ∈ t.edges ↔ t.contains key = true := by
  rw [Topology.edges, List.mem_toFinset, Dict.contains_eq_true_iff]

omit [DecidableEq F] in
theorem Topology.exists_item {t : Topology F} {key : EdgeKey} (h : key ∈ t.edges) :
    ∃ edge, (key, edge) ∈ t.items := by
  rw [Topology.edges, List.mem_toFinset, Dict.mem_keys_iff] at h
  obtain ⟨edge, hedge⟩ := h
  exact ⟨edge, Dict.get?_eq_some_iff.1 hedge⟩

omit [DecidableEq F] in
theorem Topology.mem_edges_of_item {t : Topology F} {item : EdgeKey × PartitionEdge F}
    (h : item ∈ t.items) : item.1 ∈ t.edges := by
  rw [Topology.edges, List.mem_toFinset]
  exact List.mem_map_of_mem h

omit [DecidableEq F] in
/-- **The candidates are the transitions that are seen.** -/
theorem PartitionWatch.shows_iff (hstable : s.stable.Keyed) (hcurrent : current.Keyed)
    {shape : TransitionShape} : (s.sighting current observed).Shows shape ↔
      ∃ c ∈ candidates order observation observed s.stable current, c.shape = shape := by
  have hrelation (child : String) :
      child ∈ observed.keys.toFinset ↔ observed.contains child = true := by
    rw [List.mem_toFinset, Dict.contains_eq_true_iff]
  constructor
  · intro h
    obtain ⟨kind, key⟩ := shape
    cases kind with
    | attached =>
      obtain ⟨hmem, hnot⟩ := h
      obtain ⟨edge, hitem⟩ := Topology.exists_item hmem
      rw [PartitionWatch.sighting, Topology.mem_edges, Bool.not_eq_true] at hnot
      refine ⟨_, mem_candidates.2 (Or.inl ⟨_, hitem, hnot, rfl⟩), ?_⟩
      exact congrArg (TransitionShape.mk .attached) (hcurrent _ hitem)
    | detached =>
      obtain ⟨hmem, hnot, hchild⟩ := h
      obtain ⟨edge, hitem⟩ := Topology.exists_item hmem
      rw [PartitionWatch.sighting, Topology.mem_edges, Bool.not_eq_true] at hnot
      have hkey : edge.key = key := hstable _ hitem
      refine ⟨_, mem_candidates.2 (Or.inr ⟨_, hitem, hnot, rfl⟩), ?_⟩
      rw [PartitionWatch.sighting, hrelation] at hchild
      simp [PartitionChange.shape, newPartitionChange, hkey, hchild]
    | dropped =>
      obtain ⟨hmem, hnot, hchild⟩ := h
      obtain ⟨edge, hitem⟩ := Topology.exists_item hmem
      rw [PartitionWatch.sighting, Topology.mem_edges, Bool.not_eq_true] at hnot
      have hkey : edge.key = key := hstable _ hitem
      refine ⟨_, mem_candidates.2 (Or.inr ⟨_, hitem, hnot, rfl⟩), ?_⟩
      rw [PartitionWatch.sighting, hrelation] at hchild
      simp [PartitionChange.shape, newPartitionChange, hkey, hchild]
  · rintro ⟨c, hc, rfl⟩
    rcases mem_candidates.1 hc with ⟨item, hitem, hnot, rfl⟩ | ⟨item, hitem, hnot, rfl⟩
    · have hkey := hcurrent item hitem
      refine ⟨?_, ?_⟩
      · show item.2.key ∈ current.edges
        rw [hkey]
        exact Topology.mem_edges_of_item hitem
      · show item.2.key ∉ s.stable.edges
        rw [hkey, Topology.mem_edges, hnot]
        exact Bool.false_ne_true
    · have hkey := hstable item hitem
      have hmem : item.2.key ∈ s.stable.edges := by
        rw [hkey]
        exact Topology.mem_edges_of_item hitem
      have hnone : item.2.key ∉ current.edges := by
        rw [hkey, Topology.mem_edges, hnot]
        exact Bool.false_ne_true
      by_cases hchild : observed.contains item.2.key.child = true
      · rw [if_pos hchild]
        exact ⟨hmem, hnone, (hrelation _).2 hchild⟩
      · rw [if_neg hchild]
        exact ⟨hmem, hnone, fun hrel => hchild ((hrelation _).1 hrel)⟩

/-- Two transitions about one edge cannot be seen at once. -/
theorem Sighting.shape_eq {g : Sighting} {shape shape' : TransitionShape} (h : g.Shows shape)
    (h' : g.Shows shape') (hkey : shape.key = shape'.key) : shape = shape' := by
  obtain ⟨kind, key⟩ := shape
  obtain ⟨kind', key'⟩ := shape'
  obtain rfl : key = key' := hkey
  cases kind <;> cases kind' <;>
    first
      | rfl
      | exact absurd h.1 h'.2
      | exact absurd h'.1 h.2
      | exact absurd h.2.2 h'.2.2
      | exact absurd h'.2.2 h.2.2

/-- A transition that is seen is not in effect. -/
theorem Sighting.Shows.new {g : Sighting} {shape : TransitionShape} (h : g.Shows shape) :
    shape.New g.stable := by
  obtain ⟨kind, key⟩ := shape
  cases kind with
  | attached => exact iff_of_true rfl h.2
  | detached => exact iff_of_false (by simp) (fun hnot => hnot h.1)
  | dropped => exact iff_of_false (by simp) (fun hnot => hnot h.1)

/-- A transition that is seen is in effect in the topology. -/
theorem Sighting.Shows.effect {g : Sighting} {shape : TransitionShape}
    (h : g.Shows shape) : shape.kind = .attached ↔ shape.key ∈ g.edges := by
  obtain ⟨kind, key⟩ := shape
  cases kind with
  | attached => exact iff_of_true rfl h.1
  | detached => exact iff_of_false (by simp) h.2.1
  | dropped => exact iff_of_false (by simp) h.2.1

/-- The transitions that are seen lead from the stable snapshot to the topology. -/
theorem Sighting.replay_eq {g : Sighting} {shapes : List TransitionShape}
    (hnodup : (shapes.map TransitionShape.key).Nodup)
    (h : ∀ shape, g.Shows shape ↔ shape ∈ shapes) :
    replay g.stable shapes = g.edges := by
  ext x
  by_cases hx : x ∈ shapes.map TransitionShape.key
  · obtain ⟨shape, hshape, rfl⟩ := List.mem_map.1 hx
    rw [mem_replay_of_mem hnodup hshape]
    have hshows := (h shape).2 hshape
    obtain ⟨kind, key⟩ := shape
    cases kind with
    | attached => exact iff_of_true rfl hshows.1
    | detached => exact iff_of_false (by simp) hshows.2.1
    | dropped => exact iff_of_false (by simp) hshows.2.1
  · rw [mem_replay_of_notMem hx]
    have hnone (kind : PartitionKind) : ¬ g.Shows ⟨kind, x⟩ :=
      fun hshows => hx (List.mem_map.2 ⟨_, (h _).1 hshows, rfl⟩)
    constructor
    · intro hstable
      by_contra hedges
      by_cases hchild : x.child ∈ g.relations
      · exact hnone .detached ⟨hstable, hedges, hchild⟩
      · exact hnone .dropped ⟨hstable, hedges, hchild⟩
    · intro hedges
      by_contra hstable
      exact hnone .attached ⟨hedges, hstable⟩

end Observation

/-! ### The invariant -/

namespace TopologyRun

section Invariant

variable [DecidableEq F] {order : EdgeKey → EdgeKey → Bool} {polls : ℕ}
  {observation : TopologyObservation F} {observed : ObservedRelations} {current : Topology F}
  {r : TopologyRun F}

/-- **What every run keeps**, whatever is observed. -/
structure Coupled (polls : ℕ) (r : TopologyRun F) : Prop where
  baseline : r.watch.baselineInitialized = true
  keyed : r.watch.stable.Keyed
  streaks : ∀ shape c, r.watch.unconfirmed.get? shape = some c → c.shape = shape ∧
    c.confirmations < confirmPolls polls ∧ ShownLast r.seen shape c.confirmations
  serials : ∀ c ∈ r.watch.changes, c.serial < r.watch.nextSerial
  effects : ∀ c ∈ r.watch.changes, c.kind = .attached ↔ c.edge.key ∈ r.watch.stable.edges
  confirmed : ∀ q ∈ r.queued, q.seen <+: r.seen ∧
    ShownLast q.seen q.change.shape (confirmPolls polls)
  once : EachAfter (fun before q => q.change.shape.New
    (replay r.baseline (before.map (·.change.shape)))) r.queued
  stable : r.watch.stable.edges = replay r.baseline (r.queued.map (·.change.shape))

/-- The differences that an observation shows. -/
abbrev found (order : EdgeKey → EdgeKey → Bool) (observation : TopologyObservation F)
    (observed : ObservedRelations) (current : Topology F) (r : TopologyRun F) :
    List (PartitionChange F) :=
  candidates order observation observed r.watch.stable current

omit [DecidableEq F] in
theorem one_le_confirmPolls (polls : ℕ) : 1 ≤ confirmPolls polls := le_max_left 1 polls

omit [DecidableEq F] in
theorem Coupled.streak_lt (h : r.Coupled polls) (shape : TransitionShape) :
    r.streak shape < confirmPolls polls := by
  have hpolls := one_le_confirmPolls polls
  unfold streak
  cases hget : r.watch.unconfirmed.get? shape with
  | none => exact hpolls
  | some c => exact (h.streaks shape c hget).2.1

omit [DecidableEq F] in
theorem Coupled.shownLast_streak (h : r.Coupled polls) (shape : TransitionShape) :
    ShownLast r.seen shape (r.streak shape) := by
  unfold streak
  cases hget : r.watch.unconfirmed.get? shape with
  | none => exact shownLast_zero _ _
  | some c => exact (h.streaks shape c hget).2.2

omit [DecidableEq F] in
/-- What is tracked of a candidate. -/
theorem Coupled.tracked_eq (h : r.Coupled polls) {c : PartitionChange F}
    (hc : c ∈ r.found order observation observed current) :
    (tracked r.watch.unconfirmed c).shape = c.shape ∧
      (tracked r.watch.unconfirmed c).confirmations = r.streak c.shape + 1 := by
  have hone : c.confirmations = 1 := by
    rcases mem_candidates.1 hc with ⟨item, -, -, rfl⟩ | ⟨item, -, -, rfl⟩ <;> rfl
  unfold tracked streak
  cases hget : r.watch.unconfirmed.get? c.shape with
  | none => exact ⟨rfl, hone⟩
  | some seen => exact ⟨(h.streaks c.shape seen hget).1, rfl⟩

omit [DecidableEq F] in
/-- No live change says what a candidate says. -/
theorem Coupled.not_live (h : r.Coupled polls) (hcurrent : current.Keyed) {c : PartitionChange F}
    (hc : c ∈ r.found order observation observed current) :
    ((r.watch.stillLive current observed).any fun item =>
      item.shape = c.shape && item.shape.holds current observed) = false := by
  rw [List.any_eq_false]
  intro item hitem hsame
  rw [Bool.and_eq_true, decide_eq_true_eq] at hsame
  have heffect := h.effects item (List.mem_filter.1 hitem).1
  have hshows := (PartitionWatch.shows_iff h.keyed hcurrent).2 ⟨c, hc, hsame.1.symm⟩
  have hnew : (item.kind = .attached ↔ item.edge.key ∉ r.watch.stable.edges) := hshows.new
  tauto

omit [DecidableEq F] in
/-- **The tally of an observation**: every candidate waits. -/
theorem Coupled.tally_eq (h : r.Coupled polls) (hcurrent : current.Keyed) :
    r.watch.tally (confirmPolls polls) (r.found order observation observed current) current
        observed =
      (r.found order observation observed current).foldl (Tally.confirm (confirmPolls polls))
        { unconfirmed := r.watch.stillUnconfirmed
            ((r.found order observation observed current).map PartitionChange.shape) } := by
  unfold PartitionWatch.tally
  rw [List.filter_eq_self.2]
  intro c hc
  rw [h.not_live hcurrent hc]
  rfl

omit [DecidableEq F] in
theorem get?_stillUnconfirmed (shapes : List TransitionShape) (s : PartitionWatch F)
    (shape : TransitionShape) : (s.stillUnconfirmed shapes).get? shape =
      if shape ∈ shapes then s.unconfirmed.get? shape else none := by
  unfold PartitionWatch.stillUnconfirmed
  rw [Dict.get?_filterMapValues]
  split_ifs
  · cases s.unconfirmed.get? shape <;> rfl
  · cases s.unconfirmed.get? shape <;> rfl

/-- What an accepted observation does: it confirms all that it shows, or lets it wait. -/
structure Confirms (order : EdgeKey → EdgeKey → Bool) (polls : ℕ)
    (observation : TopologyObservation F) (observed : ObservedRelations) (current : Topology F)
    (r : TopologyRun F) (next : PartitionWatch F) : Prop where
  exists_shown : ∃ shape, (r.watch.sighting current observed).Shows shape
  all : ∀ shape, (r.watch.sighting current observed).Shows shape →
    r.streak shape + 1 = confirmPolls polls
  stable : next.stable = current
  changes : next.changes = r.watch.stillLive current observed ++ PartitionWatch.enqueue
    ((r.found order observation observed current).map (tracked r.watch.unconfirmed))
    r.watch.nextSerial
  nextSerial : next.nextSerial =
    r.watch.nextSerial + (r.found order observation observed current).length
  unconfirmed : ∀ shape, next.unconfirmed.get? shape = none
  baseline : next.baselineInitialized = true

/-- The observation does not move the stable snapshot. -/
structure Waits (order : EdgeKey → EdgeKey → Bool) (polls : ℕ)
    (observed : ObservedRelations) (current : Topology F)
    (r : TopologyRun F) (next : PartitionWatch F) : Prop where
  notAll : (∃ shape, (r.watch.sighting current observed).Shows shape) →
    ∃ shape, (r.watch.sighting current observed).Shows shape ∧
      r.streak shape + 1 < confirmPolls polls
  stable : next.stable = r.watch.stable
  changes : next.changes = r.watch.stillLive current observed
  nextSerial : next.nextSerial = r.watch.nextSerial
  shown : ∀ shape, (r.watch.sighting current observed).Shows shape →
    r.streak shape + 1 < confirmPolls polls →
    ∃ c, next.unconfirmed.get? shape = some c ∧ c.shape = shape ∧
      c.confirmations = r.streak shape + 1
  other : ∀ shape, (¬ (r.watch.sighting current observed).Shows shape ∨
    confirmPolls polls ≤ r.streak shape + 1) → next.unconfirmed.get? shape = none
  baseline : next.baselineInitialized = true

omit [DecidableEq F] in
theorem keyed_of_read (hread : r.watch.read observation observed = .ok current) :
    current.Keyed ∧ ∀ item ∈ current.items, item.2.Backed observed := by
  unfold PartitionWatch.read at hread
  split_ifs at hread
  split at hread
  · cases hread
  · next t ht =>
    split at hread
    · cases hread
    · obtain rfl := Except.ok.inj hread
      exact readEdges_ok ht (List.forall_mem_nil _) (List.forall_mem_nil _)

/-- What is counted of an observation: every candidate waits, and those that were shown often enough
are ready. -/
structure Counted (order : EdgeKey → EdgeKey → Bool) (polls : ℕ)
    (observation : TopologyObservation F) (observed : ObservedRelations) (current : Topology F)
    (r : TopologyRun F) (tally : Tally F) : Prop where
  waiting : tally.waiting = (r.found order observation observed current).length
  ready : tally.ready = ((r.found order observation observed current).map
    (tracked r.watch.unconfirmed)).filter (confirmPolls polls ≤ ·.confirmations)
  own : ∀ c ∈ r.found order observation observed current, tally.unconfirmed.get? c.shape =
    if (tracked r.watch.unconfirmed c).confirmations < confirmPolls polls then
      some (tracked r.watch.unconfirmed c)
    else none
  other : ∀ shape ∉ (r.found order observation observed current).map PartitionChange.shape,
    tally.unconfirmed.get? shape = none

omit [DecidableEq F] in
theorem Coupled.counted (h : r.Coupled polls) (hcurrent : current.Keyed) :
    Counted order polls observation observed current r (r.watch.tally (confirmPolls polls)
      (r.found order observation observed current) current observed) := by
  have htrack : ∀ c ∈ r.found order observation observed current,
      tracked (r.watch.stillUnconfirmed
        ((r.found order observation observed current).map PartitionChange.shape)) c =
      tracked r.watch.unconfirmed c := by
    intro c hc
    refine tracked_congr ?_
    rw [get?_stillUnconfirmed, if_pos (List.mem_map_of_mem hc)]
  obtain ⟨hwaiting, hready, hown, hother⟩ := @Tally.confirmAll F (confirmPolls polls)
    { unconfirmed := r.watch.stillUnconfirmed
        ((r.found order observation observed current).map PartitionChange.shape) } _
    (nodup_candidates h.keyed hcurrent)
  rw [← h.tally_eq hcurrent] at hwaiting hready hown hother
  rw [List.map_congr_left htrack, List.nil_append] at hready
  refine ⟨hwaiting.trans (Nat.zero_add _), hready, fun c hc => ?_, fun shape hshape => ?_⟩
  · refine (hown c hc).trans ?_
    rw [htrack c hc]
  · refine (hother shape hshape).trans ?_
    rw [get?_stillUnconfirmed, if_neg hshape]

/-- An observation confirms when it shows something and all that it shows was shown often enough. -/
theorem Coupled.confirms (h : r.Coupled polls) (hcurrent : current.Keyed)
    (hsome : ∃ shape, (r.watch.sighting current observed).Shows shape)
    (hall : ∀ c ∈ r.found order observation observed current,
      confirmPolls polls ≤ (tracked r.watch.unconfirmed c).confirmations) :
    Confirms order polls observation observed current r
      ((r.watch.confirmAll order (confirmPolls polls) observation observed current).complete
        observation) := by
  have hshows : ∀ shape, (r.watch.sighting current observed).Shows shape ↔
      ∃ c ∈ r.found order observation observed current, c.shape = shape :=
    fun shape => PartitionWatch.shows_iff h.keyed hcurrent
  have hcounted : Counted order polls observation observed current r _ := h.counted hcurrent
  have hready := hcounted.ready
  have hfilter : ((r.found order observation observed current).map
      (tracked r.watch.unconfirmed)).filter (confirmPolls polls ≤ ·.confirmations) =
      (r.found order observation observed current).map (tracked r.watch.unconfirmed) := by
    rw [List.filter_eq_self]
    intro t ht
    obtain ⟨c, hc, rfl⟩ := List.mem_map.1 ht
    exact decide_eq_true (hall c hc)
  rw [hfilter] at hready
  have hpos : 0 < (r.found order observation observed current).length := by
    obtain ⟨shape, hshape⟩ := hsome
    obtain ⟨c, hc, -⟩ := (hshows shape).1 hshape
    exact List.length_pos_of_mem hc
  have hcommit : r.watch.confirmAll order (confirmPolls polls) observation observed current =
      PartitionWatch.advance current
        { r.watch with
          unconfirmed := (r.watch.tally (confirmPolls polls)
            (r.found order observation observed current) current observed).unconfirmed
          changes := r.watch.stillLive current observed ++ PartitionWatch.enqueue
            ((r.found order observation observed current).map (tracked r.watch.unconfirmed))
            r.watch.nextSerial
          nextSerial := r.watch.nextSerial +
            ((r.found order observation observed current).map
              (tracked r.watch.unconfirmed)).length } := by
    unfold PartitionWatch.confirmAll
    dsimp only
    rw [if_pos, hready]
    rw [hready, hcounted.waiting, List.length_map]
    omega
  rw [hcommit]
  refine ⟨hsome, fun shape hshape => ?_, rfl, rfl, ?_, fun shape => ?_, h.baseline⟩
  · obtain ⟨c, hc, rfl⟩ := (hshows shape).1 hshape
    have hle := hall c hc
    have hlt := h.streak_lt c.shape
    rw [(h.tracked_eq hc).2] at hle
    omega
  · show r.watch.nextSerial + _ = _
    rw [List.length_map]
  · by_cases hshape : shape ∈
        (r.found order observation observed current).map PartitionChange.shape
    · obtain ⟨c, hc, rfl⟩ := List.mem_map.1 hshape
      refine (hcounted.own c hc).trans ?_
      rw [if_neg (Nat.not_lt.2 (hall c hc))]
    · exact hcounted.other shape hshape

/-- Else the observation lets all that it shows wait. -/
theorem Coupled.waits (h : r.Coupled polls) (hcurrent : current.Keyed)
    (hnot : ¬ ((∃ shape, (r.watch.sighting current observed).Shows shape) ∧
      ∀ c ∈ r.found order observation observed current,
        confirmPolls polls ≤ (tracked r.watch.unconfirmed c).confirmations)) :
    Waits order polls observed current r
      ((r.watch.confirmAll order (confirmPolls polls) observation observed current).complete
        observation) := by
  have hshows : ∀ shape, (r.watch.sighting current observed).Shows shape ↔
      ∃ c ∈ r.found order observation observed current, c.shape = shape :=
    fun shape => PartitionWatch.shows_iff h.keyed hcurrent
  have hconf : ∀ c ∈ r.found order observation observed current,
      (tracked r.watch.unconfirmed c).confirmations = r.streak c.shape + 1 :=
    fun c hc => (h.tracked_eq hc).2
  have hcounted : Counted order polls observation observed current r _ := h.counted hcurrent
  have hwaits : r.watch.confirmAll order (confirmPolls polls) observation observed current =
      { r.watch with
        unconfirmed := (r.watch.tally (confirmPolls polls)
          (r.found order observation observed current) current observed).unconfirmed
        changes := r.watch.stillLive current observed } := by
    unfold PartitionWatch.confirmAll
    dsimp only
    rw [if_neg]
    rintro ⟨hne, hlength⟩
    rw [hcounted.ready, hcounted.waiting] at hlength
    have hkept := List.length_filter_eq_length_iff.1
      (hlength.trans (List.length_map (tracked r.watch.unconfirmed)).symm)
    refine hnot ⟨?_, fun c hc => ?_⟩
    · rw [hcounted.waiting, ← Nat.pos_iff_ne_zero, List.length_pos_iff_exists_mem] at hne
      obtain ⟨c, hc⟩ := hne
      exact ⟨c.shape, (hshows _).2 ⟨c, hc, rfl⟩⟩
    · exact of_decide_eq_true (hkept _ (List.mem_map_of_mem hc))
  rw [hwaits]
  refine ⟨fun hsome => ?_, rfl, rfl, rfl, fun shape hshape hlt => ?_, fun shape hshape => ?_,
    h.baseline⟩
  · by_contra hnone
    push Not at hnone
    refine hnot ⟨hsome, fun c hc => ?_⟩
    rw [hconf c hc]
    exact hnone c.shape ((hshows _).2 ⟨c, hc, rfl⟩)
  · obtain ⟨c, hc, rfl⟩ := (hshows shape).1 hshape
    refine ⟨tracked r.watch.unconfirmed c, (hcounted.own c hc).trans ?_, h.tracked_eq hc⟩
    rw [if_pos (by rw [hconf c hc]; exact hlt)]
  · by_cases hmem : shape ∈ (r.found order observation observed current).map PartitionChange.shape
    · obtain ⟨c, hc, rfl⟩ := List.mem_map.1 hmem
      refine (hcounted.own c hc).trans ?_
      rw [if_neg]
      rw [hconf c hc]
      rcases hshape with hshape | hshape
      · exact absurd ((hshows _).2 ⟨c, hc, rfl⟩) hshape
      · exact Nat.not_lt.2 hshape
    · exact hcounted.other shape hmem

/-- **An accepted observation** confirms all that it shows, or lets it wait. -/
theorem Coupled.compare_cases (h : r.Coupled polls)
    (hread : r.watch.read observation observed = .ok current) :
    Confirms order polls observation observed current r
      (r.watch.compare order (confirmPolls polls) observation observed) ∨
    Waits order polls observed current r
      (r.watch.compare order (confirmPolls polls) observation observed) := by
  have hcurrent := (keyed_of_read hread).1
  have hnext : r.watch.compare order (confirmPolls polls) observation observed =
      (r.watch.confirmAll order (confirmPolls polls) observation observed current).complete
        observation := by
    unfold PartitionWatch.compare
    rw [hread]
    dsimp only
    rw [h.baseline]
    rfl
  rw [hnext]
  by_cases hall : (∃ shape, (r.watch.sighting current observed).Shows shape) ∧
      ∀ c ∈ r.found order observation observed current,
        confirmPolls polls ≤ (tracked r.watch.unconfirmed c).confirmations
  · exact Or.inl (h.confirms hcurrent hall.1 hall.2)
  · exact Or.inr (h.waits hcurrent hall)

omit [DecidableEq F] in
theorem map_shape_enqueue (ready : List (PartitionChange F)) (serial : ℕ) :
    (PartitionWatch.enqueue ready serial).map PartitionChange.shape =
      ready.map PartitionChange.shape := by
  refine List.ext_getElem? fun i => ?_
  rw [PartitionWatch.enqueue, List.getElem?_map, List.getElem?_mapIdx, List.getElem?_map,
    Option.map_map]
  rfl

omit [DecidableEq F] in
theorem serial_enqueue {ready : List (PartitionChange F)} {serial : ℕ} {c : PartitionChange F}
    (hc : c ∈ PartitionWatch.enqueue ready serial) :
    serial ≤ c.serial ∧ c.serial < serial + ready.length := by
  obtain ⟨i, hi, rfl⟩ := List.mem_mapIdx.1 hc
  exact ⟨Nat.le_add_right _ _, Nat.add_lt_add_left hi _⟩

omit [DecidableEq F] in
/-- The live changes that an observation leaves alone were queued before. -/
theorem Coupled.stillLive_serial (h : r.Coupled polls) {c : PartitionChange F}
    (hc : c ∈ r.watch.stillLive current observed) : c.serial < r.watch.nextSerial :=
  h.serials c (List.mem_filter.1 hc).1

omit [DecidableEq F] in
theorem Coupled.filter_stillLive (h : r.Coupled polls) :
    (r.watch.stillLive current observed).filter (r.watch.nextSerial ≤ ·.serial) = [] := by
  rw [List.filter_eq_nil_iff]
  intro c hc hle
  have hlt := h.stillLive_serial hc
  have hle := of_decide_eq_true hle
  omega

omit [DecidableEq F] in
/-- A change that holds is in effect in the topology. -/
theorem effect_of_holds {shape : TransitionShape} (h : shape.holds current observed = true) :
    shape.kind = .attached ↔ shape.key ∈ current.edges := by
  rw [Topology.mem_edges]
  obtain ⟨kind, key⟩ := shape
  cases kind with
  | attached => exact iff_of_true rfl h
  | detached =>
    simp only [TransitionShape.holds, Bool.and_eq_true, Bool.not_eq_true'] at h
    exact iff_of_false (by simp) (by simp [h.1])
  | dropped =>
    simp only [TransitionShape.holds, Bool.and_eq_true, Bool.not_eq_true'] at h
    exact iff_of_false (by simp) (by simp [h.1])

/-- The run after an accepted observation. -/
theorem step_observe (hread : r.watch.read observation observed = .ok current) :
    r.step order polls (.observe observation observed) =
      { r with
        watch := r.watch.compare order (confirmPolls polls) observation observed
        seen := r.seen ++ [r.watch.sighting current observed]
        queued := r.queued ++
          ((r.watch.compare order (confirmPolls polls) observation observed).changes.filter
            (r.watch.nextSerial ≤ ·.serial)).map
              (⟨·, r.seen ++ [r.watch.sighting current observed]⟩)
        superseded := r.superseded ++ (r.watch.changes.filter fun change =>
          change.state.isLive && !change.shape.holds current observed).map
            PartitionChange.serial } := by
  unfold step
  dsimp only
  rw [hread]

omit [DecidableEq F] in
/-- The shapes that an observation shows, in the order in which they are found. -/
theorem Coupled.shapes_found (h : r.Coupled polls) (hcurrent : current.Keyed) :
    (∀ shape, (r.watch.sighting current observed).Shows shape ↔
      shape ∈ (r.found order observation observed current).map PartitionChange.shape) ∧
    (((r.found order observation observed current).map PartitionChange.shape).map
      TransitionShape.key).Nodup := by
  have hshows (shape : TransitionShape) : (r.watch.sighting current observed).Shows shape ↔
      shape ∈ (r.found order observation observed current).map PartitionChange.shape := by
    rw [List.mem_map]
    exact PartitionWatch.shows_iff h.keyed hcurrent
  refine ⟨hshows, (nodup_candidates h.keyed hcurrent).map_on ?_⟩
  intro shape hshape shape' hshape' hkey
  exact Sighting.shape_eq ((hshows shape).2 hshape) ((hshows shape').2 hshape') hkey

omit [DecidableEq F] in
theorem map_shape_queued (changes : List (PartitionChange F)) (seen : List Sighting) :
    (changes.map fun c => (⟨c, seen⟩ : QueuedTransition F)).map (·.change.shape) =
      changes.map PartitionChange.shape := by
  rw [List.map_map]
  rfl

/-- **An observation that confirms** what it shows. -/
theorem Coupled.observe_confirms (h : r.Coupled polls)
    (hread : r.watch.read observation observed = .ok current)
    (hnext : Confirms order polls observation observed current r
      (r.watch.compare order (confirmPolls polls) observation observed)) :
    (r.step order polls (.observe observation observed)).Coupled polls ∧
      ∀ shape, (r.watch.sighting current observed).Shows shape →
        ∃ q ∈ (r.step order polls (.observe observation observed)).queued.drop r.queued.length,
          q.change.shape = shape := by
  have hcurrent := (keyed_of_read hread).1
  obtain ⟨hshows, hnodup⟩ : (∀ shape, (r.watch.sighting current observed).Shows shape ↔
      shape ∈ (r.found order observation observed current).map PartitionChange.shape) ∧
      (((r.found order observation observed current).map PartitionChange.shape).map
        TransitionShape.key).Nodup := h.shapes_found hcurrent
  have htracked : ((r.found order observation observed current).map
      (tracked r.watch.unconfirmed)).map PartitionChange.shape =
      (r.found order observation observed current).map PartitionChange.shape := by
    rw [List.map_map]
    exact List.map_congr_left fun c hc => (h.tracked_eq hc).1
  have hqueued : ∀ c ∈ PartitionWatch.enqueue ((r.found order observation observed current).map
      (tracked r.watch.unconfirmed)) r.watch.nextSerial,
      (r.watch.sighting current observed).Shows c.shape := by
    intro c hc
    rw [hshows, ← htracked, ← map_shape_enqueue _ r.watch.nextSerial]
    exact List.mem_map_of_mem hc
  have hshapes : (PartitionWatch.enqueue ((r.found order observation observed current).map
      (tracked r.watch.unconfirmed)) r.watch.nextSerial).map PartitionChange.shape =
      (r.found order observation observed current).map PartitionChange.shape := by
    rw [map_shape_enqueue, htracked]
  rw [step_observe hread, hnext.changes, List.filter_append, h.filter_stillLive, List.nil_append,
    List.filter_eq_self.2 fun c hc => decide_eq_true (serial_enqueue hc).1]
  refine ⟨⟨hnext.baseline, ?_, ?_, ?_, ?_, ?_, ?_, ?_⟩, ?_⟩
  · show (r.watch.compare order (confirmPolls polls) observation observed).stable.Keyed
    rw [hnext.stable]
    exact hcurrent
  · intro shape c hc
    rw [hnext.unconfirmed] at hc
    cases hc
  · intro c hc
    dsimp only at hc ⊢
    rw [hnext.changes] at hc
    rw [hnext.nextSerial]
    rcases List.mem_append.1 hc with hc | hc
    · have := h.stillLive_serial hc
      omega
    · have hlt := (serial_enqueue hc).2
      rw [List.length_map] at hlt
      exact hlt
  · intro c hc
    dsimp only at hc ⊢
    rw [hnext.changes] at hc
    rw [hnext.stable]
    rcases List.mem_append.1 hc with hc | hc
    · have hholds := (List.mem_filter.1 hc).2
      rw [Bool.and_eq_true] at hholds
      exact effect_of_holds hholds.2
    · exact (hqueued c hc).effect
  · intro q hq
    rcases List.mem_append.1 hq with hq | hq
    · obtain ⟨hseen, hlast⟩ := h.confirmed q hq
      exact ⟨hseen.trans (List.prefix_append _ _), hlast⟩
    · obtain ⟨c, hc, rfl⟩ := List.mem_map.1 hq
      refine ⟨List.prefix_rfl, ?_⟩
      have hshow := hqueued c hc
      rw [← hnext.all c.shape hshow]
      exact (h.shownLast_streak c.shape).push hshow
  · refine eachAfter_append.2 ⟨h.once, ?_⟩
    have hnew := eachAfter_new hnodup fun shape hshape => ((hshows shape).2 hshape).new
    rw [← hshapes, ← map_shape_queued _ (r.seen ++ [r.watch.sighting current observed])] at hnew
    refine hnew.of_map.mono fun before q hq => ?_
    rw [List.map_append, replay_append, ← h.stable]
    exact hq
  · dsimp only
    rw [hnext.stable, List.map_append, map_shape_queued, hshapes, replay_append, ← h.stable]
    exact (Sighting.replay_eq hnodup hshows).symm
  · intro shape hshape
    dsimp only
    rw [List.drop_left]
    rw [hshows, ← hshapes] at hshape
    obtain ⟨c, hc, rfl⟩ := List.mem_map.1 hshape
    exact ⟨_, List.mem_map_of_mem hc, rfl⟩

/-- **An observation that lets its transitions wait.** -/
theorem Coupled.observe_waits (h : r.Coupled polls)
    (hread : r.watch.read observation observed = .ok current)
    (hnext : Waits order polls observed current r
      (r.watch.compare order (confirmPolls polls) observation observed)) :
    (r.step order polls (.observe observation observed)).Coupled polls ∧
      (r.step order polls (.observe observation observed)).queued = r.queued := by
  rw [step_observe hread, hnext.changes, h.filter_stillLive, List.map_nil, List.append_nil]
  refine ⟨⟨hnext.baseline, ?_, ?_, ?_, ?_, ?_, h.once, ?_⟩, rfl⟩
  · show (r.watch.compare order (confirmPolls polls) observation observed).stable.Keyed
    rw [hnext.stable]
    exact h.keyed
  · intro shape c hc
    dsimp only at hc ⊢
    by_cases hshape : (r.watch.sighting current observed).Shows shape ∧
        r.streak shape + 1 < confirmPolls polls
    · obtain ⟨c', hc', hshape', hconf⟩ := hnext.shown shape hshape.1 hshape.2
      obtain rfl := Option.some.inj (hc'.symm.trans hc)
      rw [hconf]
      exact ⟨hshape', hshape.2, (h.shownLast_streak shape).push hshape.1⟩
    · rw [hnext.other shape] at hc
      · cases hc
      · by_cases hshows : (r.watch.sighting current observed).Shows shape
        · exact Or.inr (Nat.not_lt.1 fun hlt => hshape ⟨hshows, hlt⟩)
        · exact Or.inl hshows
  · intro c hc
    dsimp only at hc ⊢
    rw [hnext.changes] at hc
    rw [hnext.nextSerial]
    exact h.stillLive_serial hc
  · intro c hc
    dsimp only at hc ⊢
    rw [hnext.changes] at hc
    rw [hnext.stable]
    exact h.effects c (List.mem_filter.1 hc).1
  · intro q hq
    obtain ⟨hseen, hlast⟩ := h.confirmed q hq
    exact ⟨hseen.trans (List.prefix_append _ _), hlast⟩
  · dsimp only
    rw [hnext.stable]
    exact h.stable

omit [DecidableEq F] in
/-- A step that leaves the snapshot and what is unconfirmed alone, and queues nothing. -/
theorem Coupled.congr (h : r.Coupled polls) {w : PartitionWatch F}
    (hbaseline : w.baselineInitialized = r.watch.baselineInitialized)
    (hstable : w.stable = r.watch.stable) (hunconfirmed : w.unconfirmed = r.watch.unconfirmed)
    (hserial : w.nextSerial = r.watch.nextSerial)
    (hchanges : ∀ c ∈ w.changes, ∃ c' ∈ r.watch.changes, c.serial = c'.serial ∧
      c.kind = c'.kind ∧ c.edge = c'.edge) :
    { r with watch := w }.Coupled polls := by
  refine ⟨hbaseline.trans h.baseline, ?_, ?_, ?_, ?_, h.confirmed, h.once, ?_⟩
  · show w.stable.Keyed
    rw [hstable]
    exact h.keyed
  · show ∀ shape c, w.unconfirmed.get? shape = some c → _
    rw [hunconfirmed]
    exact h.streaks
  · intro c hc
    obtain ⟨c', hc', hsame, -, -⟩ := hchanges c hc
    dsimp only
    rw [hsame, hserial]
    exact h.serials c' hc'
  · intro c hc
    obtain ⟨c', hc', -, hkind, hedge⟩ := hchanges c hc
    dsimp only
    rw [hkind, hedge, hstable]
    exact h.effects c' hc'
  · show w.stable.edges = _
    rw [hstable]
    exact h.stable

/-- **One step.** -/
theorem Coupled.step (h : r.Coupled polls) (next : WatchStep F) :
    (r.step order polls next).Coupled polls := by
  cases next with
  | observe observation observed =>
    cases hread : r.watch.read observation observed with
    | ok current =>
      have hcases : Confirms order polls observation observed current r
            (r.watch.compare order (confirmPolls polls) observation observed) ∨
          Waits order polls observed current r
            (r.watch.compare order (confirmPolls polls) observation observed) :=
        h.compare_cases hread
      rcases hcases with hnext | hnext
      · exact (h.observe_confirms hread hnext).1
      · exact (h.observe_waits hread hnext).1
    | error reason =>
      have hstep : r.step order polls (.observe observation observed) =
          { r with watch := r.watch.reject observation reason } := by
        unfold TopologyRun.step PartitionWatch.compare
        dsimp only
        rw [hread]
      rw [hstep]
      exact h.congr rfl rfl rfl rfl fun c hc => ⟨c, hc, rfl, rfl, rfl⟩
  | mark =>
    refine h.congr rfl rfl rfl rfl fun c hc => ?_
    obtain ⟨c', hc', rfl⟩ := List.mem_map.1 hc
    refine ⟨c', hc', ?_⟩
    split_ifs
    · exact ⟨rfl, rfl, rfl⟩
    · exact ⟨rfl, rfl, rfl⟩
  | due durableLsn =>
    refine h.congr rfl rfl rfl rfl fun c hc => ?_
    obtain ⟨c', hc', rfl⟩ := List.mem_map.1 hc
    refine ⟨c', hc', ?_⟩
    split_ifs
    · exact ⟨rfl, rfl, rfl⟩
    · exact ⟨rfl, rfl, rfl⟩
    · exact ⟨rfl, rfl, rfl⟩
  | settle serials =>
    exact h.congr rfl rfl rfl rfl fun c hc =>
      ⟨c, (List.mem_filter.1 hc).1, rfl, rfl, rfl⟩

omit [DecidableEq F] in
/-- What is read depends on the stable snapshot only. -/
theorem read_congr {w w' : PartitionWatch F} (h : w'.stable = w.stable) :
    w'.read observation observed = w.read observation observed := by
  unfold PartitionWatch.read
  rw [h]

omit [DecidableEq F] in
/-- The topology that was read is read again once it is the stable snapshot. -/
theorem read_of_stable {w : PartitionWatch F} (h : w.stable = current)
    (hread : r.watch.read observation observed = .ok current) :
    w.read observation observed = .ok current := by
  have hbacked := (keyed_of_read hread).2
  unfold PartitionWatch.read at hread ⊢
  split_ifs at hread ⊢ with husable
  split at hread
  · cases hread
  · next t ht =>
    split at hread
    · cases hread
    · obtain rfl := Except.ok.inj hread
      have hnone :
          (w.stable.items.findSome? fun item => stableRejection observed item.2) = none := by
        rw [h, List.findSome?_eq_none_iff]
        exact fun item hitem => (hbacked item hitem).stableRejection
      rw [hnone]

/-- A step is an accepted observation, or it leaves all but the changes of the watcher alone. -/
theorem step_cases (r : TopologyRun F) (next : WatchStep F) :
    (∃ observation observed current, next = .observe observation observed ∧
      r.watch.read observation observed = .ok current) ∨
    ∃ watch : PartitionWatch F, r.step order polls next = { r with watch := watch } ∧
      watch.stable = r.watch.stable ∧ watch.unconfirmed = r.watch.unconfirmed := by
  cases next with
  | observe observation observed =>
    cases hread : r.watch.read observation observed with
    | ok current => exact .inl ⟨observation, observed, current, rfl, hread⟩
    | error reason =>
      refine .inr ⟨r.watch.reject observation reason, ?_, rfl, rfl⟩
      unfold TopologyRun.step PartitionWatch.compare
      dsimp only
      rw [hread]
  | mark => exact .inr ⟨r.watch.mark, rfl, rfl, rfl⟩
  | due durableLsn => exact .inr ⟨r.watch.due durableLsn, rfl, rfl, rfl⟩
  | settle serials => exact .inr ⟨r.watch.settle serials, rfl, rfl, rfl⟩

/-- What accepted observations of the same edges and relations have come to: the snapshot has moved
to these edges, or every transition has been seen so often. -/
inductive Progress (r : TopologyRun F) (edges : Finset EdgeKey) (relations : Finset String) (n : ℕ)
    (r' : TopologyRun F) : Prop
  | settled (hstable : r'.watch.stable.edges = edges)
      (hqueued : ∀ shape, (Sighting.mk r.watch.stable.edges edges relations).Shows shape →
        ∃ q ∈ r'.queued.drop r.queued.length, q.change.shape = shape)
  | waiting (hstable : r'.watch.stable.edges = r.watch.stable.edges)
      (hqueued : r'.queued = r.queued)
      (hsome : ∃ shape, (Sighting.mk r.watch.stable.edges edges relations).Shows shape)
      (hstreak : ∀ shape, (Sighting.mk r.watch.stable.edges edges relations).Shows shape →
        n ≤ r'.streak shape)

omit [DecidableEq F] in
/-- Nothing is seen of a topology that is the stable snapshot. -/
theorem not_shows_of_settled {w : PartitionWatch F} (h : w.stable.edges = current.edges)
    (shape : TransitionShape) : ¬ (w.sighting current observed).Shows shape := by
  intro hshows
  have hnew : (shape.kind = .attached ↔ shape.key ∉ w.stable.edges) := hshows.new
  have heffect : (shape.kind = .attached ↔ shape.key ∈ current.edges) := hshows.effect
  rw [h] at hnew
  tauto

/-- The topology that was read is read again. -/
theorem Coupled.read_step (h : r.Coupled polls)
    (hread : r.watch.read observation observed = .ok current) :
    (r.step order polls (.observe observation observed)).watch.read observation observed =
      .ok current := by
  have hcases : Confirms order polls observation observed current r
        (r.watch.compare order (confirmPolls polls) observation observed) ∨
      Waits order polls observed current r
        (r.watch.compare order (confirmPolls polls) observation observed) :=
    h.compare_cases hread
  rw [step_observe hread]
  rcases hcases with hnext | hnext
  · exact read_of_stable hnext.stable hread
  · exact (read_congr hnext.stable).trans hread

section Step

variable {r' : TopologyRun F} {edges : Finset EdgeKey} {relations : Finset String} {n : ℕ}

omit [DecidableEq F] in
/-- A step that is not an accepted observation. -/
theorem Progress.other (h : Progress r edges relations n r') {watch : PartitionWatch F}
    (hstable : watch.stable = r'.watch.stable)
    (hunconfirmed : watch.unconfirmed = r'.watch.unconfirmed) :
    Progress r edges relations n { r' with watch := watch } := by
  cases h with
  | settled hedges hqueued => exact .settled (hstable ▸ hedges) hqueued
  | waiting hedges hqueued hsome hstreak =>
    refine .waiting (hstable ▸ hedges) hqueued hsome fun shape hshape => ?_
    rw [streak, hunconfirmed]
    exact hstreak shape hshape

/-- One more observation of the same edges and relations. -/
theorem Progress.step (h : Progress r edges relations n r') (hcoupled : r'.Coupled polls)
    (horderly : r'.Orderly polls (.observe observation observed))
    (hread : r'.watch.read observation observed = .ok current) (hedges : current.edges = edges)
    (hrelations : observed.keys.toFinset = relations) :
    Progress r edges relations (n + 1)
      (r'.step order polls (.observe observation observed)) := by
  have hcases : Confirms order polls observation observed current r'
        (r'.watch.compare order (confirmPolls polls) observation observed) ∨
      Waits order polls observed current r'
        (r'.watch.compare order (confirmPolls polls) observation observed) :=
    hcoupled.compare_cases hread
  subst hedges hrelations
  cases h with
  | settled hstable hqueued =>
    rcases hcases with hnext | hnext
    · obtain ⟨shape, hshape⟩ := hnext.exists_shown
      exact absurd hshape (not_shows_of_settled hstable shape)
    · have hstay := (hcoupled.observe_waits hread hnext).2
      refine .settled ?_ (hstay ▸ hqueued)
      rw [step_observe hread]
      dsimp only
      rw [hnext.stable]
      exact hstable
  | waiting hstable hqueued hsome hstreak =>
    have hsame : r'.watch.sighting current observed =
        ⟨r.watch.stable.edges, current.edges, observed.keys.toFinset⟩ := by
      unfold PartitionWatch.sighting
      rw [hstable]
    rcases hcases with hnext | hnext
    · have hnew := (hcoupled.observe_confirms hread hnext).2
      rw [hsame, hqueued] at hnew
      refine .settled ?_ hnew
      rw [step_observe hread]
      dsimp only
      rw [hnext.stable]
    · have hstay := (hcoupled.observe_waits hread hnext).2
      have htogether := (horderly current hread).2
      have hnotAll := hnext.notAll
      have hshown := hnext.shown
      rw [hsame] at htogether hnotAll hshown
      obtain ⟨late, hlate, hlt⟩ := hnotAll hsome
      refine .waiting ?_ (hstay.trans hqueued) hsome fun shape hshape => ?_
      · rw [step_observe hread]
        dsimp only
        rw [hnext.stable]
        exact hstable
      · have hltShape : r'.streak shape + 1 < confirmPolls polls := by
          by_contra hle
          have := htogether shape late hshape hlate (Nat.not_lt.1 hle)
          omega
        obtain ⟨c, hc, -, hconf⟩ := hshown shape hshape hltShape
        have hn := hstreak shape hshape
        have hstep : (r'.step order polls (.observe observation observed)).streak shape =
            r'.streak shape + 1 := by
          rw [step_observe hread]
          show ((r'.watch.compare order (confirmPolls polls) observation
            observed).unconfirmed.get? shape).elim 0 PartitionChange.confirmations = _
          rw [hc]
          exact hconf
        omega

end Step

end Invariant

/-! ### Runs of observations -/

section Runs

variable [DecidableEq F] {order : EdgeKey → EdgeKey → Bool} {polls : ℕ}
  {baseline : List (PartitionEdge F)}

theorem run_append (steps more : List (WatchStep F)) :
    run order polls baseline (steps ++ more) =
      more.foldl (step order polls) (run order polls baseline steps) :=
  List.foldl_append

theorem run_concat (steps : List (WatchStep F)) (next : WatchStep F) :
    run order polls baseline (steps ++ [next]) =
      (run order polls baseline steps).step order polls next := by
  rw [run_append]
  rfl

omit [DecidableEq F] in
theorem keyed_edgesByKey (edges : List (PartitionEdge F)) : (edgesByKey edges).Keyed := by
  unfold edgesByKey
  induction edges using List.reverseRecOn with
  | nil => exact List.forall_mem_nil _
  | append_singleton edges edge ih =>
    rw [List.foldl_append]
    exact ih.set edge

theorem coupled_run (steps : List (WatchStep F)) :
    (run order polls baseline steps).Coupled polls := by
  induction steps using List.reverseRecOn with
  | nil =>
    refine ⟨rfl, keyed_edgesByKey baseline, fun shape c hc => ?_, List.forall_mem_nil _,
      List.forall_mem_nil _, List.forall_mem_nil _, eachAfter_nil, rfl⟩
    cases hc
  | append_singleton steps next ih =>
    rw [run_concat]
    exact ih.step next

/-- The condition on a run: it holds of every step in the state before it. Only accepted
observations are restricted; marks, due and settle calls and refused observations may stand
anywhere. -/
def OrderlyRun (order : EdgeKey → EdgeKey → Bool) (polls : ℕ) (baseline : List (PartitionEdge F))
    (steps : List (WatchStep F)) : Prop :=
  EachAfter (fun before next => (run order polls baseline before).Orderly polls next) steps

/-- Where no live change is undone, none is superseded. -/
theorem superseded_run {steps : List (WatchStep F)}
    (h : OrderlyRun order polls baseline steps) :
    (run order polls baseline steps).superseded = [] := by
  induction steps using List.reverseRecOn with
  | nil => rfl
  | append_singleton steps next ih =>
    obtain ⟨hsteps, hnext⟩ := eachAfter_append_singleton.1 h
    rw [run_concat]
    rcases step_cases (run order polls baseline steps) next with
      ⟨observation, observed, current, rfl, hread⟩ | ⟨watch, hstep, -, -⟩
    · rw [step_observe hread]
      dsimp only
      rw [ih hsteps, List.nil_append, List.map_eq_nil_iff, List.filter_eq_nil_iff]
      intro c hc hundone
      simp only [Bool.and_eq_true, Bool.not_eq_true'] at hundone
      have hholds := (hnext current hread).1 c hc hundone.1
      rw [hundone.2] at hholds
      cases hholds
    · rw [hstep]
      exact ih hsteps

theorem seen_prefix (steps more : List (WatchStep F)) :
    (run order polls baseline steps).seen <+: (run order polls baseline (steps ++ more)).seen := by
  induction more using List.reverseRecOn with
  | nil => rw [List.append_nil]
  | append_singleton more next ih =>
    rw [← List.append_assoc, run_concat]
    rcases step_cases (run order polls baseline (steps ++ more)) next with
      ⟨observation, observed, current, rfl, hread⟩ | ⟨watch, hstep, -, -⟩
    · rw [step_observe hread]
      exact ih.trans (List.prefix_append _ _)
    · rw [hstep]
      exact ih

/-- What has come of the steps after a state, in which accepted observations have shown these edges
and relations only. -/
theorem progress_run {steps more : List (WatchStep F)} {edges : Finset EdgeKey}
    {relations : Finset String} {shown : List Sighting}
    (h : OrderlyRun order polls baseline (steps ++ more))
    (hseen : (run order polls baseline (steps ++ more)).seen =
      (run order polls baseline steps).seen ++ shown)
    (hshown : ∀ g ∈ shown, g.edges = edges ∧ g.relations = relations) :
    Progress (run order polls baseline steps) edges relations shown.length
      (run order polls baseline (steps ++ more)) := by
  induction more using List.reverseRecOn generalizing shown with
  | nil =>
    rw [List.append_nil] at hseen ⊢
    obtain rfl : shown = [] := List.self_eq_append_right.1 hseen
    by_cases hsome : ∃ shape, (Sighting.mk (run order polls baseline steps).watch.stable.edges edges
        relations).Shows shape
    · exact .waiting rfl rfl hsome fun _ _ => Nat.zero_le _
    · refine .settled ?_ fun shape hshape => absurd ⟨shape, hshape⟩ hsome
      have hnone (shape : TransitionShape) :
          (Sighting.mk (run order polls baseline steps).watch.stable.edges edges relations).Shows
            shape ↔ shape ∈ ([] : List TransitionShape) :=
        iff_of_false (fun hshape => hsome ⟨shape, hshape⟩) List.not_mem_nil
      have hnodup : (([] : List TransitionShape).map TransitionShape.key).Nodup := List.nodup_nil
      exact Sighting.replay_eq hnodup hnone
  | append_singleton more next ih =>
    rw [← List.append_assoc] at h hseen ⊢
    obtain ⟨hsteps, hnext⟩ := eachAfter_append_singleton.1 h
    rw [run_concat] at hseen ⊢
    rcases step_cases (run order polls baseline (steps ++ more)) next with
      ⟨observation, observed, current, rfl, hread⟩ | ⟨watch, hstep, hstable, hunconfirmed⟩
    · have hprefix : (run order polls baseline steps).seen <+:
          (run order polls baseline (steps ++ more)).seen := seen_prefix steps more
      obtain ⟨earlier, hearlier⟩ := hprefix
      rw [step_observe hread, ← hearlier, List.append_assoc] at hseen
      obtain rfl := List.append_cancel_left hseen
      obtain ⟨hold, hlast⟩ := List.forall_mem_append.1 hshown
      obtain ⟨hedges, hrelations⟩ := hlast _ (List.mem_singleton_self _)
      rw [List.length_append, List.length_singleton]
      exact (ih hsteps hearlier.symm hold).step (coupled_run _) hnext hread hedges hrelations
    · rw [hstep] at hseen ⊢
      exact (ih hsteps hseen hshown).other hstable hunconfirmed

/-- A topology that is read is read as often as it is observed. -/
theorem seen_replicate {steps : List (WatchStep F)} {observation : TopologyObservation F}
    {observed : ObservedRelations} {current : Topology F}
    (hread : (run order polls baseline steps).watch.read observation observed = .ok current)
    (n : ℕ) :
    (run order polls baseline
      (steps ++ List.replicate n (.observe observation observed))).watch.read observation observed =
        .ok current ∧
    ∃ shown, (run order polls baseline
        (steps ++ List.replicate n (.observe observation observed))).seen =
          (run order polls baseline steps).seen ++ shown ∧ shown.length = n ∧
      ∀ g ∈ shown, g.edges = current.edges ∧ g.relations = observed.keys.toFinset := by
  induction n with
  | zero =>
    rw [List.replicate_zero, List.append_nil]
    exact ⟨hread, [], (List.append_nil _).symm, rfl, List.forall_mem_nil _⟩
  | succ n ih =>
    obtain ⟨hagain, shown, hseen, hlength, hshown⟩ := ih
    rw [List.replicate_succ', ← List.append_assoc, run_concat]
    refine ⟨(coupled_run _).read_step hagain, ?_⟩
    let again := (run order polls baseline
      (steps ++ List.replicate n (.observe observation observed))).watch.sighting current observed
    refine ⟨shown ++ [again], ?_, ?_, ?_⟩
    · rw [step_observe hagain]
      dsimp only
      rw [hseen, List.append_assoc]
    · rw [List.length_append, hlength, List.length_singleton]
    · exact List.forall_mem_append.2 ⟨hshown, List.forall_mem_singleton.2 ⟨rfl, rfl⟩⟩

/-- **The purpose of the confirmation.** A queued transition was seen in as many accepted
observations in a row as are asked for, and is queued once; the stable snapshot is the baseline with
the queued transitions that were not superseded; and after so many observations of one topology the
snapshot is that topology, and what it differed in has been queued. The observations of one topology
may be one observation that is made again, or accepted observations of the same edges and relations
with other steps between them. -/
def Confirming (order : EdgeKey → EdgeKey → Bool) (polls : ℕ) (baseline : List (PartitionEdge F))
    (steps : List (WatchStep F)) : Prop :=
  (run order polls baseline steps).Sound polls ∧
  (∀ before observation observed current,
    steps = before ++ List.replicate (confirmPolls polls) (.observe observation observed) →
    (run order polls baseline before).watch.read observation observed = .ok current →
    (run order polls baseline steps).watch.stable.edges = current.edges ∧
    ∀ shape, ((run order polls baseline before).watch.sighting current observed).Shows shape →
      ∃ q ∈ (run order polls baseline steps).queued.drop
          (run order polls baseline before).queued.length, q.change.shape = shape) ∧
  ∀ before more shown edges relations, steps = before ++ more →
    (run order polls baseline steps).seen = (run order polls baseline before).seen ++ shown →
    confirmPolls polls ≤ shown.length →
    (∀ g ∈ shown, g.edges = edges ∧ g.relations = relations) →
    (run order polls baseline steps).watch.stable.edges = edges ∧
    ∀ shape, (Sighting.mk (run order polls baseline before).watch.stable.edges edges
        relations).Shows shape →
      ∃ q ∈ (run order polls baseline steps).queued.drop
          (run order polls baseline before).queued.length, q.change.shape = shape

/-- So many accepted observations of the same edges and relations move the snapshot there. -/
theorem settled_run {steps more : List (WatchStep F)} {edges : Finset EdgeKey}
    {relations : Finset String} {shown : List Sighting}
    (h : OrderlyRun order polls baseline (steps ++ more))
    (hseen : (run order polls baseline (steps ++ more)).seen =
      (run order polls baseline steps).seen ++ shown)
    (hlength : confirmPolls polls ≤ shown.length)
    (hshown : ∀ g ∈ shown, g.edges = edges ∧ g.relations = relations) :
    (run order polls baseline (steps ++ more)).watch.stable.edges = edges ∧
    ∀ shape, (Sighting.mk (run order polls baseline steps).watch.stable.edges edges
        relations).Shows shape →
      ∃ q ∈ (run order polls baseline (steps ++ more)).queued.drop
          (run order polls baseline steps).queued.length, q.change.shape = shape := by
  cases progress_run h hseen hshown with
  | settled hstable hqueued => exact ⟨hstable, hqueued⟩
  | waiting _ _ hsome hstreak =>
    obtain ⟨shape, hshape⟩ := hsome
    have hle := hstreak shape hshape
    have hlt : (run order polls baseline (steps ++ more)).streak shape < confirmPolls polls :=
      (coupled_run _).streak_lt shape
    omega

/-- **Partition topology confirmation** does what it is for in every orderly run. -/
theorem confirming_run (order : EdgeKey → EdgeKey → Bool) (polls : ℕ)
    (baseline : List (PartitionEdge F)) (steps : List (WatchStep F))
    (h : OrderlyRun order polls baseline steps) : Confirming order polls baseline steps := by
  have hcoupled : (run order polls baseline steps).Coupled polls := coupled_run steps
  refine ⟨⟨hcoupled.confirmed, hcoupled.once, ?_⟩, ?_, ?_⟩
  · rw [superseded_run h, hcoupled.stable]
    simp
  · rintro before observation observed current rfl hread
    obtain ⟨-, shown, hseen, hlength, hshown⟩ := seen_replicate hread (confirmPolls polls)
    exact settled_run h hseen hlength.ge hshown
  · rintro before more shown edges relations rfl hseen hlength hshown
    exact settled_run h hseen hlength hshown

omit [DecidableEq F] in
/-- For a topology that is read the condition is one on the candidates. -/
theorem orderly_of_found {r : TopologyRun F} {observation : TopologyObservation F}
    {observed : ObservedRelations} {current : Topology F} (h : r.Coupled polls)
    (hread : r.watch.read observation observed = .ok current)
    (hlive : ∀ c ∈ r.watch.changes, c.shape.holds current observed)
    (htogether : ∀ c ∈ r.found order observation observed current,
      ∀ c' ∈ r.found order observation observed current,
      confirmPolls polls ≤ r.streak c.shape + 1 → confirmPolls polls ≤ r.streak c'.shape + 1) :
    r.Orderly polls (.observe observation observed) := by
  intro current' hread'
  obtain rfl := Except.ok.inj (hread.symm.trans hread')
  refine ⟨fun c hc _ => hlive c hc, fun shape shape' hshape hshape' hle => ?_⟩
  have hcurrent := (keyed_of_read hread).1
  have hshows (shape : TransitionShape) : (r.watch.sighting current observed).Shows shape ↔
      ∃ c ∈ r.found order observation observed current, c.shape = shape :=
    PartitionWatch.shows_iff h.keyed hcurrent
  obtain ⟨c, hc, rfl⟩ := (hshows shape).1 hshape
  obtain ⟨c', hc', rfl⟩ := (hshows shape').1 hshape'
  exact htogether c hc c' hc' hle

end Runs

end TopologyRun

namespace Accounts

/-- A partition of the accounts. -/
def partitionOf (child : String) : PartitionEdge Unit where
  key :=
    { parent := "public.accounts"
      parentGeneration := ⟨some 1, some 1, some 1⟩
      child := child
      childGeneration := ⟨some 2, some 2, some 2⟩
      attachmentEpoch := some "7"
      attachmentSequence := some 1 }
  bound := some "DEFAULT"
  attachmentState := some "attached"
  facts := ()

/-- The relations of the accounts and of two partitions. -/
def accountRelations : ObservedRelations :=
  (((∅ : ObservedRelations).set "public.accounts" ⟨some 1, some 1, some 1⟩).set
    "public.accounts_a" ⟨some 2, some 2, some 2⟩).set
    "public.accounts_b" ⟨some 2, some 2, some 2⟩

/-- An observation of some partitions. -/
def observing (children : List String) : TopologyObservation Unit where
  edges := children.map partitionOf
  complete := true
  detectionLsn := 10

/-- One after the other. -/
def byChild (a b : EdgeKey) : Bool := a.child ≤ b.child

/-- Both partitions are attached, and then both are observed twice. -/
def attachedTogether : List (WatchStep Unit) :=
  List.replicate 2 (.observe (observing ["public.accounts_a", "public.accounts_b"])
    accountRelations)

/-- One partition is attached and observed, then the other. -/
def attachedInTurn : List (WatchStep Unit) :=
  .observe (observing ["public.accounts_a"]) accountRelations :: attachedTogether

/-- The topology of both partitions. -/
def bothAttached : Topology Unit :=
  edgesByKey [partitionOf "public.accounts_a", partitionOf "public.accounts_b"]

/-- Both partitions may be observed after some steps, when they wait together. -/
private theorem orderly_both {steps : List (WatchStep Unit)}
    (hread : (TopologyRun.run byChild 2 [] steps).watch.read
      (observing ["public.accounts_a", "public.accounts_b"]) accountRelations = .ok bothAttached)
    (hlive : ∀ c ∈ (TopologyRun.run byChild 2 [] steps).watch.changes,
      c.shape.holds bothAttached accountRelations)
    (htogether : ∀ c ∈ (TopologyRun.run byChild 2 [] steps).found byChild
        (observing ["public.accounts_a", "public.accounts_b"]) accountRelations bothAttached,
      ∀ c' ∈ (TopologyRun.run byChild 2 [] steps).found byChild
        (observing ["public.accounts_a", "public.accounts_b"]) accountRelations bothAttached,
      TopologyRun.confirmPolls 2 ≤ (TopologyRun.run byChild 2 [] steps).streak c.shape + 1 →
        TopologyRun.confirmPolls 2 ≤ (TopologyRun.run byChild 2 [] steps).streak c'.shape + 1) :
    (TopologyRun.run byChild 2 [] steps).Orderly 2
      (.observe (observing ["public.accounts_a", "public.accounts_b"]) accountRelations) :=
  TopologyRun.orderly_of_found (TopologyRun.coupled_run steps) hread hlive htogether

theorem confirming_attachedTogether :
    TopologyRun.Confirming byChild 2 [] attachedTogether := by
  refine TopologyRun.confirming_run byChild 2 [] attachedTogether ?_
  refine eachAfter_cons.2 ⟨?_, eachAfter_cons.2 ⟨?_, eachAfter_nil⟩⟩
  · exact orderly_both rfl (by decide) (by decide)
  · exact orderly_both rfl (by decide) (by decide)

/-- **Partitions that are attached in turn are never confirmed together**: after two observations of
both the snapshot has none. -/
theorem not_confirming_attachedInTurn :
    ¬ TopologyRun.Confirming byChild 2 [] attachedInTurn := by
  intro h
  have hstable := (h.2.1 [.observe (observing ["public.accounts_a"]) accountRelations] _ _
    bothAttached rfl rfl).1
  revert hstable
  decide

end Accounts

end CdcFlight
