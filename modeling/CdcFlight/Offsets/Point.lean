import CdcFlight.Assembler.Units
import CdcFlight.Source.Records

/-!
# The resume point of a commit group

`offsets.point_for`: the point a group makes durable inside its own transaction. The position is
the greatest of the previous one and those of the units; the Connect partition and offset map are
those of the last record of the group. They are read from the record's handle when they are
needed, and the reading may fail; the group is then refused, but only if its position goes beyond
the previous one.

So a group that stays at or below the durable position, a replayed one for example, may store an
empty map, or the map of an older position beside the newer one.

## Main definitions

* `CdcFlight.ConnectMap`, `CdcFlight.lsnOf`, `CdcFlight.ResumePoint`, `CdcFlight.pointFor`.
* `CdcFlight.PairAdvances`: the point advances as a pair.

## Main results

* `CdcFlight.pairAdvances_iff`: the runs along which every point advances as a pair.
-/

namespace CdcFlight

open Lib

variable {C V : Type}

/-! ### Connect maps -/

/-- A value of a Connect map. Numbers that are no integers, lists and objects are kept as texts. -/
inductive JsonValue
  | null
  | bool (b : Bool)
  | int (n : ℤ)
  | text (s : String)
  | other (s : String)
deriving DecidableEq, Repr

/-- A Connect partition or offset map. -/
abbrev ConnectMap := Dict String JsonValue

/-- `isinstance(value, int)`, with the value; booleans are integers. -/
def JsonValue.asInt? : JsonValue → Option ℤ
  | .int n => some n
  | .bool b => some (if b then 1 else 0)
  | _ => none

/-- `lsn_of`: the first integer under one of three keys. -/
def lsnOf (offset : ConnectMap) : Option ℤ :=
  ["lsn", "lsn_proc", "lsn_commit"].findSome? fun key => (offset.get? key).bind JsonValue.asInt?

/-- `destination.ResumePoint`. -/
structure ResumePoint where
  partition : ConnectMap := ∅
  offset : ConnectMap := ∅
  lastLsn : ℕ := 0
  lastTxnId : Option String := none
  lastTotalOrder : Option PyInt := none
  commitId : ℕ := 0
  snapshotEpoch : ℕ := 0
deriving DecidableEq

/-- `source_partition` and `source_offset` of a record, where they can be read. -/
structure ConnectOffsets where
  partition : Option ConnectMap := none
  offset : Option ConnectMap := none

/-- The raises of `point_for`: `IndexError` on a group without units, and `ResumePointDrift`. -/
inductive PointError
  | emptyGroup
  | resumePointDrift (lastLsn : ℕ)
deriving DecidableEq, Repr

/-! ### The point -/

/-- The last record of the last unit that has records. -/
def terminalRecord (group : List (CompleteUnit C V)) : Option (PendingRecord C V) :=
  group.reverse.findSome? fun unit => unit.records.getLast?

/-- The greatest of the previous position and those of the units. -/
def groupLsn (previous : ResumePoint) (group : List (CompleteUnit C V)) : ℕ :=
  (group.map CompleteUnit.lastLsn).foldl max previous.lastLsn

/-- The ordinal of the last event of the last unit that has events. -/
def groupTotalOrder (group : List (CompleteUnit C V)) : Option PyInt :=
  (group.reverse.findSome? fun unit => unit.events.getLast?).bind PendingRecord.totalOrder

variable (connect : PendingRecord C V → ConnectOffsets)

/-- The partition a group stores. -/
def groupPartition (previous : ResumePoint) (group : List (CompleteUnit C V)) : ConnectMap :=
  match terminalRecord group with
  | some record => (connect record).partition.getD ∅
  | none => previous.partition

/-- The offset map a group stores. -/
def groupOffset (previous : ResumePoint) (group : List (CompleteUnit C V)) : ConnectMap :=
  match terminalRecord group with
  | some record => (connect record).offset.getD ∅
  | none => previous.offset

/-- Whether the last record has an offset map. -/
def terminalReadable (group : List (CompleteUnit C V)) : Bool :=
  match terminalRecord group with
  | some record => (connect record).offset.getD ∅ ≠ ∅
  | none => false

/-- `offsets.point_for`. -/
def pointFor (group : List (CompleteUnit C V)) (previous : ResumePoint)
    (commitId snapshotEpoch : ℕ) : Except PointError ResumePoint :=
  match group.getLast? with
  | none => .error .emptyGroup
  | some lastUnit =>
    if previous.lastLsn < groupLsn previous group && !terminalReadable connect group then
      .error (.resumePointDrift (groupLsn previous group))
    else .ok
      { partition := groupPartition connect previous group
        offset := groupOffset connect previous group
        lastLsn := groupLsn previous group
        lastTxnId := if truthy lastUnit.txnId then lastUnit.txnId else previous.lastTxnId
        lastTotalOrder := groupTotalOrder group
        commitId := commitId
        snapshotEpoch := snapshotEpoch }

/-- A commit group, with what the applier passes beside it. -/
structure PointGroup (C V : Type) where
  units : List (CompleteUnit C V)
  commitId : ℕ
  snapshotEpoch : ℕ

/-- A committed group moves the resume point. -/
def PointStep (previous : ResumePoint) (group : PointGroup C V) (point : ResumePoint) : Prop :=
  pointFor connect group.units previous group.commitId group.snapshotEpoch = .ok point

/-! ### Pairs -/

/-- The position is not beyond the offset map stored beside it, and no position is stored beside
a missing map. -/
def ResumePoint.Paired (point : ResumePoint) : Prop :=
  point.lastLsn = 0 ∨ ∃ lsn, lsnOf point.offset = some lsn ∧ (point.lastLsn : ℤ) ≤ lsn

/-- **The point advances as a pair** over a group. -/
structure PairAdvances (previous : ResumePoint) (group : List (CompleteUnit C V))
    (point : ResumePoint) : Prop where
  monotone : previous.lastLsn ≤ point.lastLsn
  keepsPartition : previous.partition ≠ ∅ → point.partition ≠ ∅
  keepsOffset : previous.offset ≠ ∅ → point.offset ≠ ∅
  /-- Both maps are those of the last record of the group; a group without records keeps both. -/
  oneRecord : (point.partition, point.offset) =
    match (group.flatMap CompleteUnit.records).getLast? with
    | some record => ((connect record).partition.getD ∅, (connect record).offset.getD ∅)
    | none => (previous.partition, previous.offset)
  paired : point.Paired

/-- The last record of a group, if it has one, has a partition and an offset map wherever the
previous point has, and its map is not older than the positions of the units and of the previous
point. -/
def LastRecordReadable (previous : ResumePoint) (group : List (CompleteUnit C V)) : Prop :=
  ∀ record, terminalRecord group = some record →
    (previous.partition ≠ ∅ → (connect record).partition.getD ∅ ≠ ∅) ∧
    (previous.offset ≠ ∅ → (connect record).offset.getD ∅ ≠ ∅) ∧
    (groupLsn previous group = 0 ∨ ∃ lsn, lsnOf ((connect record).offset.getD ∅) = some lsn ∧
      (groupLsn previous group : ℤ) ≤ lsn)

/-- What holds of every group of a run: of the point before it, the group and the point after. A run
is the groups that are committed one after the other from a start, each from the point that the one
before has left. -/
def AlongPoints (P : ResumePoint → List (CompleteUnit C V) → ResumePoint → Prop)
    (start : ResumePoint) (groups : List (PointGroup C V)) : Prop :=
  ∀ before group previous point, before ++ [group] <+: groups →
    Trace (PointStep connect) start before previous → PointStep connect previous group point →
      P previous group.units point

/-! ### Lemmas -/

theorem terminalRecord_eq (group : List (CompleteUnit C V)) :
    terminalRecord group = (group.flatMap CompleteUnit.records).getLast? := by
  induction group using List.reverseRecOn with
  | nil => rfl
  | append_singleton group unit ih =>
    rw [terminalRecord, List.reverse_append, List.reverse_singleton, List.singleton_append,
      List.findSome?_cons, List.flatMap_append, List.getLast?_append, List.flatMap_singleton, ← ih]
    cases unit.records.getLast? with
    | none => rfl
    | some record => rfl

theorem le_groupLsn (previous : ResumePoint) (group : List (CompleteUnit C V)) :
    previous.lastLsn ≤ groupLsn previous group := by
  rw [groupLsn]
  generalize previous.lastLsn = start
  generalize group.map CompleteUnit.lastLsn = positions
  induction positions generalizing start with
  | nil => exact le_rfl
  | cons position positions ih => exact (le_max_left start position).trans (ih _)

/-- The maps of a group with a last record are those of the record. -/
theorem maps_of_terminal {group : List (CompleteUnit C V)} {record : PendingRecord C V}
    (h : terminalRecord group = some record) (previous : ResumePoint) :
    groupPartition connect previous group = (connect record).partition.getD ∅ ∧
      groupOffset connect previous group = (connect record).offset.getD ∅ := by
  rw [groupPartition, groupOffset, h]
  exact ⟨rfl, rfl⟩

/-- A group without records keeps the maps, and has none to read. -/
theorem maps_of_no_terminal {group : List (CompleteUnit C V)} (h : terminalRecord group = none)
    (previous : ResumePoint) :
    groupPartition connect previous group = previous.partition ∧
      groupOffset connect previous group = previous.offset ∧
      terminalReadable connect group = false := by
  rw [groupPartition, groupOffset, terminalReadable, h]
  exact ⟨rfl, rfl, rfl⟩

/-- What a point is made of. -/
theorem pointFor_eq_ok {group : List (CompleteUnit C V)} {previous point : ResumePoint}
    {commitId snapshotEpoch : ℕ}
    (h : pointFor connect group previous commitId snapshotEpoch = .ok point) :
    point.partition = groupPartition connect previous group ∧
      point.offset = groupOffset connect previous group ∧
      point.lastLsn = groupLsn previous group ∧
      (previous.lastLsn < groupLsn previous group → terminalReadable connect group = true) := by
  rw [pointFor] at h
  cases hlast : group.getLast? with
  | none =>
    rw [hlast] at h
    exact absurd h (by simp)
  | some lastUnit =>
    simp only [hlast] at h
    by_cases hdrift : (decide (previous.lastLsn < groupLsn previous group) &&
        !terminalReadable connect group) = true
    · rw [if_pos hdrift] at h
      exact absurd h (by simp)
    · rw [if_neg hdrift] at h
      obtain rfl := Except.ok.inj h
      refine ⟨rfl, rfl, rfl, fun hlt => ?_⟩
      by_contra hunreadable
      exact hdrift (by simp [hlt, Bool.eq_false_iff.2 hunreadable])

variable {connect}

/-- A group whose last record is readable advances a paired point as a pair. -/
theorem PairAdvances.of_readable {previous point : ResumePoint} {group : PointGroup C V}
    (hstep : PointStep connect previous group point) (hpaired : previous.Paired)
    (hreadable : LastRecordReadable connect previous group.units) :
    PairAdvances connect previous group.units point := by
  obtain ⟨hpartition, hoffset, hlsn, hread⟩ := pointFor_eq_ok connect hstep
  have hmonotone : previous.lastLsn ≤ point.lastLsn := hlsn ▸ le_groupLsn previous group.units
  cases hterminal : terminalRecord group.units with
  | none =>
    obtain ⟨hkept, hkept', hunread⟩ := maps_of_no_terminal connect hterminal previous
    rw [hkept] at hpartition
    rw [hkept'] at hoffset
    have hsame : point.lastLsn = previous.lastLsn := by
      by_contra hne
      have hfalse := hread (by omega)
      rw [hunread] at hfalse
      exact absurd hfalse (by decide)
    refine ⟨hmonotone, fun h => hpartition ▸ h, fun h => hoffset ▸ h, ?_, ?_⟩
    · rw [← terminalRecord_eq, hterminal, hpartition, hoffset]
    · rw [ResumePoint.Paired, hsame, hoffset]
      exact hpaired
  | some record =>
    obtain ⟨hmap, hmap'⟩ := maps_of_terminal connect hterminal previous
    rw [hmap] at hpartition
    rw [hmap'] at hoffset
    obtain ⟨hkeepsPartition, hkeepsOffset, hnotOlder⟩ := hreadable record hterminal
    refine ⟨hmonotone, fun h => hpartition ▸ hkeepsPartition h,
      fun h => hoffset ▸ hkeepsOffset h, ?_, ?_⟩
    · rw [← terminalRecord_eq, hterminal, hpartition, hoffset]
    · rw [ResumePoint.Paired, hlsn, hoffset]
      exact hnotOlder

theorem LastRecordReadable.of_pairAdvances {previous point : ResumePoint}
    {group : PointGroup C V} (hstep : PointStep connect previous group point)
    (h : PairAdvances connect previous group.units point) :
    LastRecordReadable connect previous group.units := by
  obtain ⟨hpartition, hoffset, hlsn, _⟩ := pointFor_eq_ok connect hstep
  intro record hterminal
  obtain ⟨hmap, hmap'⟩ := maps_of_terminal connect hterminal previous
  rw [hmap] at hpartition
  rw [hmap'] at hoffset
  have hpaired := h.paired
  rw [ResumePoint.Paired, hlsn, hoffset] at hpaired
  exact ⟨fun hp => hpartition ▸ h.keepsPartition hp, fun ho => hoffset ▸ h.keepsOffset ho, hpaired⟩

/-- **The resume point advances as one pair** along a run exactly when the last record of every
group is readable and not older than the position stored with it. -/
theorem pairAdvances_iff {start : ResumePoint} (hstart : start.Paired)
    (groups : List (PointGroup C V)) :
    AlongPoints connect (PairAdvances connect) start groups ↔
      AlongPoints connect (fun previous group _ => LastRecordReadable connect previous group)
        start groups := by
  refine ⟨fun h before group previous point hleads hrun hstep =>
    .of_pairAdvances hstep (h before group previous point hleads hrun hstep),
    fun h before group previous point hleads hrun hstep =>
      .of_readable hstep ?_ (h before group previous point hleads hrun hstep)⟩
  -- Every point reached before the group is paired, by induction on the groups.
  have hpaired : ∀ before previous, before <+: groups →
      Trace (PointStep connect) start before previous → previous.Paired := by
    intro before
    induction before using List.reverseRecOn with
    | nil =>
      rintro previous _ hrun
      cases hrun
      exact hstart
    | append_singleton before group ih =>
      rintro previous hleads hrun
      obtain ⟨middle, hbefore, hlast⟩ := hrun.of_append
      cases hlast with
      | cons hstep hnil =>
        cases hnil
        have hmiddle := ih middle ((List.prefix_append before [group]).trans hleads) hbefore
        exact (PairAdvances.of_readable hstep hmiddle
          (h before group middle previous hleads hbefore hstep)).paired
  exact hpaired before previous ((List.prefix_append before [group]).trans hleads) hrun

namespace Accounts

/-- A transaction that ended at a position. -/
def endedAt (lsn : ℕ) (raw : Option ℕ) : CompleteUnit Column String where
  kind := .txn
  lastLsn := lsn
  records := [{ kind := .txnEnd, raw := raw, lsn := some lsn }]

/-- The handle of a record gives its maps; without the handle they cannot be read. -/
def fromHandle (record : PendingRecord Column String) : ConnectOffsets :=
  match record.raw with
  | some lsn =>
    { partition := some ((∅ : ConnectMap).set "server" (.text "cdcflight"))
      offset := some ((∅ : ConnectMap).set "lsn" (.int lsn)) }
  | none => {}

/-- A transaction is committed, then the transaction after it. -/
def following : List (PointGroup Column String) :=
  [⟨[endedAt 200 (some 200)], 1, 0⟩, ⟨[endedAt 210 (some 210)], 2, 0⟩]

/-- The end of a transaction has a map that is as new as its position. -/
theorem lastRecordReadable_endedAt {previous : ResumePoint} {lsn : ℕ}
    (h : previous.lastLsn ≤ lsn) :
    LastRecordReadable fromHandle previous [endedAt lsn (some lsn)] := by
  rintro record hrecord
  obtain rfl : { kind := .txnEnd, raw := some lsn, lsn := some lsn } = record :=
    Option.some.inj hrecord
  refine ⟨fun _ => ?_, fun _ hempty => ?_, Or.inr ⟨lsn, rfl, ?_⟩⟩
  · have hserver : (∅ : ConnectMap).set "server" (.text "cdcflight") ≠ ∅ := by decide
    exact hserver
  · have hlsn := congrArg lsnOf hempty
    exact absurd hlsn (by simp [fromHandle, lsnOf, JsonValue.asInt?])
  · have hgroup : groupLsn previous [endedAt lsn (some lsn)] = max previous.lastLsn lsn := rfl
    rw [hgroup, max_eq_right h]

theorem following_pairAdvances :
    AlongPoints fromHandle (PairAdvances fromHandle) {} following := by
  refine (pairAdvances_iff (Or.inl rfl) following).2
    fun before group previous point hstart hrun _ => ?_
  obtain ⟨rest, hrest⟩ := hstart
  rw [List.append_assoc, List.singleton_append] at hrest
  obtain _ | ⟨first, before⟩ := before
  · cases hrun
    obtain ⟨rfl, _⟩ := List.cons.inj hrest
    exact lastRecordReadable_endedAt (Nat.zero_le _)
  · obtain ⟨rfl, htail⟩ := List.cons.inj hrest
    obtain _ | ⟨second, before⟩ := before
    · obtain ⟨rfl, _⟩ := List.cons.inj htail
      refine lastRecordReadable_endedAt ?_
      cases hrun with
      | cons hstep hnil =>
        cases hnil
        rw [(pointFor_eq_ok _ hstep).2.2.1]
        decide
    · exact absurd (List.cons.inj htail).2 (by simp)

/-- A transaction is committed, and delivered again without a readable offset. -/
def redelivered : List (PointGroup Column String) :=
  [⟨[endedAt 200 (some 200)], 1, 0⟩, ⟨[endedAt 200 none], 2, 0⟩]

/-- The second group replaces the offset map by an empty one. -/
theorem redelivered_not_pairAdvances :
    ¬ AlongPoints fromHandle (PairAdvances fromHandle) {} redelivered := by
  intro h
  have hadvances := h [⟨[endedAt 200 (some 200)], 1, 0⟩] ⟨[endedAt 200 none], 2, 0⟩
    { partition := (∅ : ConnectMap).set "server" (.text "cdcflight")
      offset := (∅ : ConnectMap).set "lsn" (.int 200), lastLsn := 200, commitId := 1 }
    { lastLsn := 200, commitId := 2 } (List.prefix_refl _) (.cons rfl (.nil _)) rfl
  exact hadvances.keepsOffset (by decide) rfl

end Accounts

end CdcFlight
