import CdcFlight.Assembler.Feed

/-!
# Folding a unit: the snapshot watermarks

`planner.GroupPlan.add_unit` up to the events it hands to `_collect_contained`: the staged prefix
of the unit first, then its in-memory tail, without the events whose table already holds a newer
snapshot image. What becomes of a collected event, and the end of the source transaction, are
`foldEvent` and `foldTransaction`; the swap a snapshot chunk schedules is not part of this module.

The spill store is given by what `load` returns for a unit's sequence number.

## Main definitions

* `CdcFlight.belowWatermark`: `_below_watermark`.
* `CdcFlight.addUnit`: the events of a unit that are collected, and the number that are fenced.

## Main results

* `CdcFlight.collected_addUnit`, `CdcFlight.fenced_addUnit`: a unit's events are collected in order
  or fenced, one by one.
-/

namespace CdcFlight

open Lib

variable {C V : Type}

/-- `spill.StagedEvent`, as `load` returns it. -/
structure StagedEvent (C V : Type) where
  event : PendingRecord C V
  eventId : String
  target : String
  seq : Option ℤ := none

/-- An event handed to `_collect_contained`; a staged event keeps the target and the identity it
was staged under. -/
structure Collected (C V : Type) where
  event : PendingRecord C V
  target : Option String := none
  eventId : Option String := none

/-- A staged event on its way to the fold. -/
def StagedEvent.collected (staged : StagedEvent C V) : Collected C V where
  event := staged.event
  target := some staged.target
  eventId := some staged.eventId

/-- The relation an event names by a schema and a table. -/
def PendingRecord.relation (event : PendingRecord C V) : Option String :=
  if truthy event.schema && truthy event.table then
    some (event.schema.getD "" ++ "." ++ event.table.getD "")
  else none

/-- `_below_watermark`: does the event's table already hold a newer snapshot image of it? -/
def belowWatermark (event : PendingRecord C V) (commitLsn : Option ℕ)
    (watermarks : Dict String ℕ) : Bool :=
  if orZero commitLsn = 0 || watermarks.items.isEmpty then false
  else match event.relation with
    | none => false
    | some relation => match watermarks.get? relation with
      | none => false
      | some mark => orZero commitLsn < mark

/-- The `commit_lsn` of `add_unit`, which the fence compares. -/
def CompleteUnit.fenceLsn (unit : CompleteUnit C V) : Option ℕ :=
  if unit.kind ≠ .snapshotChunk then some unit.lastLsn else none

/-- What `add_unit` makes of one unit. -/
structure UnitPlan (C V : Type) where
  collected : List (Collected C V) := []
  /-- `watermark_fenced_events`; every one of them is counted in `stats["events"]`. -/
  fenced : ℕ := 0

/-- The events of a unit in source order: what was staged, then what is still in memory. -/
def CompleteUnit.sourceOrder (unit : CompleteUnit C V) (load : ℕ → List (StagedEvent C V)) :
    List (Collected C V) :=
  (unit.spillUnitSeq.elim [] load).map StagedEvent.collected ++
    unit.events.map fun event => { event := event }

/-- One event of a unit passes the fence, or is counted. -/
def UnitPlan.take (commitLsn : Option ℕ) (watermarks : Dict String ℕ) (plan : UnitPlan C V)
    (arrival : Collected C V) : UnitPlan C V :=
  if belowWatermark arrival.event commitLsn watermarks then
    { plan with fenced := plan.fenced + 1 }
  else { plan with collected := plan.collected ++ [arrival] }

/-- `add_unit`. -/
def addUnit (watermarks : Dict String ℕ) (load : ℕ → List (StagedEvent C V))
    (unit : CompleteUnit C V) : UnitPlan C V :=
  if unit.kind = .control ∨ unit.ignored then {}
  else
    let fenceBelow := if orZero unit.fenceLsn ≠ 0 then watermarks else ∅
    (unit.sourceOrder load).foldl (UnitPlan.take unit.fenceLsn fenceBelow) {}

/-! ### What passes -/

/-- Without a fence position no mark matters. -/
theorem belowWatermark_fenceBelow (event : PendingRecord C V) (commitLsn : Option ℕ)
    (watermarks : Dict String ℕ) :
    belowWatermark event commitLsn (if orZero commitLsn ≠ 0 then watermarks else ∅) =
      belowWatermark event commitLsn watermarks := by
  by_cases h : orZero commitLsn = 0
  · simp [belowWatermark, h]
  · rw [if_pos h]

theorem foldl_take (commitLsn : Option ℕ) (watermarks : Dict String ℕ) (plan : UnitPlan C V)
    (arrivals : List (Collected C V)) :
    arrivals.foldl (UnitPlan.take commitLsn watermarks) plan =
      { collected := plan.collected ++
          arrivals.filter fun a => !belowWatermark a.event commitLsn watermarks
        fenced := plan.fenced +
          arrivals.countP fun a => belowWatermark a.event commitLsn watermarks } := by
  induction arrivals generalizing plan with
  | nil => simp
  | cons a arrivals ih =>
    rw [List.foldl_cons, ih]
    by_cases h : belowWatermark a.event commitLsn watermarks
    · simp only [UnitPlan.take, h, if_true, List.filter_cons, List.countP_cons]
      simp only [Bool.not_true, Bool.false_eq_true, if_false, UnitPlan.mk.injEq, true_and]
      omega
    · simp [UnitPlan.take, h]

section Plans

variable {unit : CompleteUnit C V} (watermarks : Dict String ℕ)
  (load : ℕ → List (StagedEvent C V))

private theorem addUnit_eq (hkind : unit.kind ≠ .control) (hignored : unit.ignored = false) :
    addUnit watermarks load unit =
      { collected := (unit.sourceOrder load).filter fun a =>
          !belowWatermark a.event unit.fenceLsn watermarks
        fenced := (unit.sourceOrder load).countP fun a =>
          belowWatermark a.event unit.fenceLsn watermarks } := by
  rw [addUnit, if_neg (by simp [hkind, hignored])]
  simp only [foldl_take, belowWatermark_fenceBelow, List.nil_append, Nat.zero_add]

/-- The events that pass the fence, in source order. -/
theorem collected_addUnit (hkind : unit.kind ≠ .control) (hignored : unit.ignored = false) :
    (addUnit watermarks load unit).collected =
      (unit.sourceOrder load).filter fun a =>
        !belowWatermark a.event unit.fenceLsn watermarks := by
  rw [addUnit_eq watermarks load hkind hignored]

/-- Every event is collected or counted. -/
theorem fenced_addUnit (hkind : unit.kind ≠ .control) (hignored : unit.ignored = false) :
    (addUnit watermarks load unit).collected.length + (addUnit watermarks load unit).fenced =
      (unit.sourceOrder load).length := by
  rw [addUnit_eq watermarks load hkind hignored]
  simp only [List.countP_eq_length_filter]
  rw [Nat.add_comm]
  exact (List.length_eq_length_filter_add _).symm

end Plans

/-- The verdict on an event of a marked relation. -/
theorem belowWatermark_of_mark {event : PendingRecord C V} {commitLsn : Option ℕ}
    {watermarks : Dict String ℕ} {relation : String} {mark : ℕ}
    (hevent : event.relation = some relation) (hmark : watermarks.get? relation = some mark) :
    belowWatermark event commitLsn watermarks ↔
      0 < orZero commitLsn ∧ orZero commitLsn < mark := by
  have hitems : watermarks.items.isEmpty = false := by
    have hmem := Dict.get?_eq_some_iff.1 hmark
    cases hitems : watermarks.items with
    | nil => simp [hitems] at hmem
    | cons _ _ => rfl
  unfold belowWatermark
  simp only [hevent, hmark, hitems, Bool.or_false]
  by_cases h : orZero commitLsn = 0
  · simp [h]
  · simp [h, Nat.pos_of_ne_zero h]

/-- The verdict on an event depends on the mark of its own relation only. -/
theorem belowWatermark_congr {event : PendingRecord C V} (commitLsn : Option ℕ)
    {watermarks watermarks' : Dict String ℕ}
    (h : ∀ relation, event.relation = some relation →
      watermarks.get? relation = watermarks'.get? relation) :
    belowWatermark event commitLsn watermarks = belowWatermark event commitLsn watermarks' := by
  cases hevent : event.relation with
  | none => simp [belowWatermark, hevent]
  | some relation =>
    have hsame := h relation hevent
    cases hmark : watermarks.get? relation with
    | none =>
      have hmark' := hsame.symm.trans hmark
      simp [belowWatermark, hevent, hmark, hmark']
    | some mark =>
      have hmark' := hsame.symm.trans hmark
      rw [Bool.eq_iff_iff, belowWatermark_of_mark hevent hmark,
        belowWatermark_of_mark hevent hmark']

end CdcFlight
