import CdcFlight.Lib.MarkedLog
import CdcFlight.Lib.Run
import CdcFlight.Offsets.Point

/-!
# Commit before acknowledgement

The protocol of `commit_protocol.commit_group` between the source log, the destination and any
number of runners: a runner acquires the lease, reads the resume point, reads the log from a
position that was acknowledged, collects units into a group, writes the group and the new resume
point in one destination transaction, and acknowledges its units only after COMMIT. A runner may
die anywhere, also with a COMMIT whose answer is lost, and a lease may be taken over from a runner
that goes on. The transaction of a group is fenced by the lease, so it commits under the current
epoch only.

A unit is delivered again as a whole, so a position in the log stands for a Connect offset, and
marking the records of a unit is one step. What a transaction does to the destination is an
arbitrary function, of which nothing says that it may be repeated. The other units have no fence
and are not followed into the destination. Refusals and containment, which end in a death of the
runner or a retry of the same group, are left out.

## Main definitions

* `CdcFlight.CommitLog`: the units of the source, in the order of their positions.
* `CdcFlight.CommitSystem`, `CdcFlight.CommitSystem.Step`: the runners on one destination.

## Main results

* `CdcFlight.CommitSystem.exactly_once`: the destination is the source up to a position that only
  moves forward, and what is acknowledged lies before it.
* `CdcFlight.CommitSystem.catches_up`: a new runner can always apply and acknowledge all the rest.
-/

namespace CdcFlight

open Lib

variable {C V D : Type}

/-! ### The log -/

/-- `append_unit` fences a transaction at or below the durable position. -/
def CompleteUnit.durableAt (unit : CompleteUnit C V) (lsn : ℕ) : Bool :=
  unit.kind = .txn && unit.lastLsn ≠ 0 && decide (unit.lastLsn ≤ lsn)

/-- The units that the source delivers, in the order of its log. A transaction has a positive
position and lies after everything that was delivered before it; the positions of other units may
repeat. Transactions come in the order of their commits, and so they do when they come again. -/
structure CommitLog (C V : Type) where
  units : List (CompleteUnit C V)
  ordered : units.Pairwise fun a b => b.kind = .txn → a.lastLsn < b.lastLsn
  positive : ∀ unit ∈ units, unit.kind = .txn → 0 < unit.lastLsn

/-- A unit in a group. -/
structure CommitEntry (C V : Type) where
  unit : CompleteUnit C V
  fenced : Bool

namespace CommitLog

variable (log : CommitLog C V)

theorem ordered_txn :
    log.units.Pairwise fun a b => decide (b.kind = .txn) = true → a.lastLsn < b.lastLsn :=
  log.ordered.imp fun h hb => h (of_decide_eq_true hb)

theorem positive_txn :
    ∀ unit ∈ log.units, decide (unit.kind = .txn) = true → (⊥ : ℕ) < unit.lastLsn :=
  fun unit hunit htxn => log.positive unit hunit (of_decide_eq_true htxn)

/-- The log, with its transactions guarded. -/
def marked : MarkedLog (CompleteUnit C V) ℕ where
  entries := log.units
  mark := CompleteUnit.lastLsn
  guarded unit := decide (unit.kind = .txn)
  ordered := log.ordered_txn
  positive := log.positive_txn

/-- The source up to a position. -/
def appliedUpTo (apply : D → CompleteUnit C V → D) (rows : D) (n : ℕ) : D :=
  log.marked.replay apply rows n

/-- The greatest position of the units before a position. -/
def lsnUpTo (n : ℕ) : ℕ := log.marked.upTo n

/-- The units from a position up to another, as they join a group. -/
def entries (a b lsn : ℕ) : List (CommitEntry C V) :=
  (log.marked.segment a b).map fun unit => ⟨unit, unit.durableAt lsn⟩

end CommitLog

/-- The offset of the last record of every unit can be read: each unit has a record, and its last
one carries a Connect offset. Without it no resume point can be made and the group raises. -/
def CommitLog.Readable (log : CommitLog C V) (connect : PendingRecord C V → ConnectOffsets) :
    Prop :=
  ∀ unit ∈ log.units, ∃ record, unit.records.getLast? = some record ∧
    (connect record).offset.getD ∅ ≠ ∅

/-- The planner applies what is not fenced. -/
def applyEntry (apply : D → CompleteUnit C V → D) (rows : D) (entry : CommitEntry C V) : D :=
  if entry.unit.kind = .txn && !entry.fenced then apply rows entry.unit else rows

/-! ### Runners -/

/-- Where a runner stands in `commit_group`. -/
inductive CommitPhase
  /-- The lease is acquired, and the resume point not yet read. -/
  | booting
  | collecting
  /-- In the destination transaction, with the new resume point. -/
  | writing (point : ResumePoint)
  /-- After COMMIT, with so many units marked. -/
  | acknowledging (point : ResumePoint) (marked : ℕ)

/-- The applier of a runner. -/
structure CommitRunner (C V : Type) where
  epoch : ℕ
  resumePoint : ResumePoint := {}
  /-- The positions of the first unit of the group, and of the next unit. -/
  opened : ℕ := 0
  next : ℕ := 0
  group : List (CommitEntry C V) := []
  phase : CommitPhase := .booting

/-- `append_unit`: a unit joins the group. -/
def CommitRunner.join (r : CommitRunner C V) (unit : CompleteUnit C V) : CommitRunner C V :=
  { r with
    group := r.group ++ [⟨unit, unit.durableAt r.resumePoint.lastLsn⟩]
    next := r.next + 1 }

/-- The group is acknowledged, and the next one is opened. -/
def CommitRunner.finished (r : CommitRunner C V) (point : ResumePoint) : CommitRunner C V :=
  { r with resumePoint := point, opened := r.next, group := [], phase := .collecting }

/-- One destination, and the runners on it. -/
structure CommitSystem (C V D : Type) where
  /-- The epoch of the lease. -/
  lease : ℕ := 0
  runner : ℕ → Option (CommitRunner C V) := fun _ => none
  rows : D
  /-- The row of `debezium_offsets`. -/
  point : ResumePoint := {}
  /-- The source may forget the log up to here. -/
  acked : ℕ := 0

/-- What happens next. -/
inductive CommitStep
  | acquire (i : ℕ)
  | start (i position : ℕ)
  | join (i : ℕ)
  | write (i : ℕ)
  | commit (i : ℕ)
  /-- The server commits, and the client does not learn of it. -/
  | commitLost (i : ℕ)
  | mark (i : ℕ)
  | finish (i : ℕ)
  | crash (i : ℕ)
deriving DecidableEq, Repr

namespace CommitSystem

/-- A runner goes on. -/
def set (s : CommitSystem C V D) (i : ℕ) (r : Option (CommitRunner C V)) : CommitSystem C V D :=
  { s with runner := Function.update s.runner i r }

/-- The lease is taken. -/
def raise (s : CommitSystem C V D) : CommitSystem C V D := { s with lease := s.lease + 1 }

/-- The source may forget up to a position. -/
def acknowledge (s : CommitSystem C V D) (position : ℕ) : CommitSystem C V D :=
  { s with acked := max s.acked position }

variable (log : CommitLog C V) (connect : PendingRecord C V → ConnectOffsets)
  (apply : D → CompleteUnit C V → D)

/-- The destination after the COMMIT of a group. -/
def committed (s : CommitSystem C V D) (r : CommitRunner C V) (point : ResumePoint) :
    CommitSystem C V D :=
  { s with rows := r.group.foldl (applyEntry apply) s.rows, point := point }

/-- One step of one runner. -/
inductive Step (s : CommitSystem C V D) : CommitStep → CommitSystem C V D → Prop
  | acquire {i : ℕ} (h : s.runner i = none) :
    Step s (.acquire i) (s.raise.set i (some { epoch := s.lease + 1 }))
  | start {i position : ℕ} {r : CommitRunner C V} (h : s.runner i = some r)
    (hphase : r.phase = .booting) (hposition : position ≤ s.acked) :
    Step s (.start i position) (s.set i (some { r with
      resumePoint := s.point, opened := position, next := position, group := [],
      phase := .collecting }))
  | join {i : ℕ} {r : CommitRunner C V} {unit : CompleteUnit C V} (h : s.runner i = some r)
    (hphase : r.phase = .collecting) (hunit : log.units[r.next]? = some unit) :
    Step s (.join i) (s.set i (some (r.join unit)))
  | write {i commitId snapshotEpoch : ℕ} {r : CommitRunner C V} {point : ResumePoint}
    (h : s.runner i = some r) (hphase : r.phase = .collecting)
    (hpoint : pointFor connect (r.group.map CommitEntry.unit) r.resumePoint commitId snapshotEpoch =
      .ok point) :
    Step s (.write i) (s.set i (some { r with phase := .writing point }))
  | commit {i : ℕ} {r : CommitRunner C V} {point : ResumePoint} (h : s.runner i = some r)
    (hphase : r.phase = .writing point) (hlease : r.epoch = s.lease) :
    Step s (.commit i) ((s.committed apply r point).set i
      (some { r with phase := .acknowledging point 0 }))
  | commitLost {i : ℕ} {r : CommitRunner C V} {point : ResumePoint} (h : s.runner i = some r)
    (hphase : r.phase = .writing point) (hlease : r.epoch = s.lease) :
    Step s (.commitLost i) ((s.committed apply r point).set i none)
  | mark {i marked : ℕ} {r : CommitRunner C V} {point : ResumePoint} (h : s.runner i = some r)
    (hphase : r.phase = .acknowledging point marked) (hmarked : marked < r.group.length) :
    Step s (.mark i) ((s.acknowledge (r.opened + marked + 1)).set i
      (some { r with phase := .acknowledging point (marked + 1) }))
  | finish {i : ℕ} {r : CommitRunner C V} {point : ResumePoint} (h : s.runner i = some r)
    (hphase : r.phase = .acknowledging point r.group.length) :
    Step s (.finish i) (s.set i (some (r.finished point)))
  | crash {i : ℕ} : Step s (.crash i) (s.set i none)

end CommitSystem

/-! ### Groups -/

namespace CommitLog

variable {log : CommitLog C V} {apply : D → CompleteUnit C V → D} {rows : D} {n m c lsn : ℕ}

@[simp] theorem entries_self : log.entries c c lsn = [] := by
  rw [entries, MarkedLog.segment_self, List.map_nil]

theorem entries_succ {unit : CompleteUnit C V} (hcm : c ≤ m) (h : log.units[m]? = some unit) :
    log.entries c (m + 1) lsn = log.entries c m lsn ++ [⟨unit, unit.durableAt lsn⟩] := by
  rw [entries, entries, log.marked.segment_succ hcm h, List.map_append, List.map_singleton]

theorem map_unit_entries :
    (log.entries c m lsn).map CommitEntry.unit = log.marked.segment c m := by
  rw [entries, List.map_map]
  exact List.map_id _

theorem length_entries (h : m ≤ log.units.length) : (log.entries c m lsn).length = m - c := by
  rw [entries, List.length_map, MarkedLog.length_segment h]

/-- A unit of the log joins unfenced exactly if it lies beyond the resume point. -/
theorem applyEntry_eq {unit : CompleteUnit C V} (h : unit ∈ log.units) :
    applyEntry apply rows ⟨unit, unit.durableAt lsn⟩ =
      log.marked.applyBeyond apply lsn rows unit := by
  have hpositive := log.positive unit h
  rw [applyEntry, MarkedLog.applyBeyond]
  refine if_congr ?_ rfl rfl
  rw [CompleteUnit.durableAt]
  change _ ↔ (decide (unit.kind = .txn) && decide (lsn < unit.lastLsn)) = true
  by_cases htxn : unit.kind = .txn
  · have := hpositive htxn
    simp [htxn]
    omega
  · simp [htxn]

/-- A group moves the destination from the durable position to its own, if that is further. -/
theorem foldl_entries (hcn : c ≤ n) (hcm : c ≤ m) :
    (log.entries c m (log.lsnUpTo n)).foldl (applyEntry apply) (log.appliedUpTo apply rows n) =
      log.appliedUpTo apply rows (max n m) := by
  rw [entries, List.foldl_map, appliedUpTo, appliedUpTo, ← MarkedLog.foldl_segment hcn hcm]
  refine List.foldl_ext _ _ _ fun rows unit hunit => ?_
  exact applyEntry_eq (MarkedLog.mem_entries_of_mem_segment hunit)

theorem groupLsn_entries {previous : ResumePoint} (hcn : c ≤ n) (hcm : c ≤ m)
    (h : previous.lastLsn = log.lsnUpTo n) :
    groupLsn previous ((log.entries c m lsn).map CommitEntry.unit) = log.lsnUpTo (max n m) := by
  rw [map_unit_entries, groupLsn, h]
  exact MarkedLog.upTo_segment hcn hcm

end CommitLog

/-! ### The invariant -/

/-- The point that a runner takes for durable. -/
def CommitRunner.believed (r : CommitRunner C V) : Option ResumePoint :=
  match r.phase with
  | .booting => none
  | .collecting | .writing _ => some r.resumePoint
  | .acknowledging point _ => some point

/-- A runner at a lease and a durable point, with the destination at a position. -/
structure CommitRunner.Sound (log : CommitLog C V) (n lease : ℕ) (point : ResumePoint)
    (r : CommitRunner C V) : Prop where
  epoch : r.epoch ≤ lease
  opened : r.opened ≤ r.next
  reached : r.opened ≤ n
  inside : r.next ≤ log.units.length
  group : r.group = log.entries r.opened r.next r.resumePoint.lastLsn
  /-- The holder of the lease knows the durable point. -/
  fresh : r.epoch = lease → ∀ known, r.believed = some known → point = known
  writing : ∀ known, r.phase = .writing known →
    known.lastLsn = groupLsn r.resumePoint (r.group.map CommitEntry.unit)
  acknowledging : ∀ known marked, r.phase = .acknowledging known marked → r.next ≤ n

/-- The destination is the source up to a position. -/
structure CommitSystem.Sound (log : CommitLog C V) (apply : D → CompleteUnit C V → D) (rows : D)
    (n : ℕ) (s : CommitSystem C V D) : Prop where
  inside : n ≤ log.units.length
  rows : s.rows = log.appliedUpTo apply rows n
  lsn : s.point.lastLsn = log.lsnUpTo n
  acked : s.acked ≤ n
  runner : ∀ i r, s.runner i = some r → r.Sound log n s.lease s.point
  one : ∀ i j r q, s.runner i = some r → s.runner j = some q → r.epoch = q.epoch → i = j

namespace CommitRunner.Sound

variable {log : CommitLog C V} {n m lease lease' position marked : ℕ}
  {point point' next : ResumePoint} {r : CommitRunner C V}

/-- A runner that does not hold the lease is not affected by the others. -/
theorem stale (h : r.Sound log n lease point) (hle : lease ≤ lease') (hepoch : r.epoch ≠ lease')
    (hnm : n ≤ m) : r.Sound log m lease' point' where
  epoch := h.epoch.trans hle
  opened := h.opened
  reached := h.reached.trans hnm
  inside := h.inside
  group := h.group
  fresh heq := absurd heq hepoch
  writing := h.writing
  acknowledging known marked hphase := (h.acknowledging known marked hphase).trans hnm

theorem boot : ({ epoch := lease } : CommitRunner C V).Sound log n lease point where
  epoch := le_rfl
  opened := le_rfl
  reached := n.zero_le
  inside := log.units.length.zero_le
  group := CommitLog.entries_self.symm
  fresh _ known hknown := absurd hknown (by simp [CommitRunner.believed])
  writing known hphase := absurd hphase (by simp)
  acknowledging known marked hphase := absurd hphase (by simp)

theorem start (h : r.Sound log n lease point) (hposition : position ≤ n)
    (hn : n ≤ log.units.length) :
    CommitRunner.Sound log n lease point { r with
      resumePoint := point, opened := position, next := position, group := [],
      phase := .collecting } where
  epoch := h.epoch
  opened := le_rfl
  reached := hposition
  inside := hposition.trans hn
  group := CommitLog.entries_self.symm
  fresh _ known hknown := Option.some.inj hknown
  writing known hphase := absurd hphase (by simp)
  acknowledging known marked hphase := absurd hphase (by simp)

theorem join (h : r.Sound log n lease point) (hphase : r.phase = .collecting)
    {unit : CompleteUnit C V} (hunit : log.units[r.next]? = some unit) :
    (r.join unit).Sound log n lease point where
  epoch := h.epoch
  opened := h.opened.trans r.next.le_succ
  reached := h.reached
  inside := (List.getElem?_eq_some_iff.1 hunit).1
  group := by
    change r.group ++ [_] = log.entries r.opened (r.next + 1) r.resumePoint.lastLsn
    rw [CommitLog.entries_succ h.opened hunit, ← h.group]
  fresh := h.fresh
  writing known hwriting := absurd (hphase.symm.trans hwriting) (by simp)
  acknowledging known marked hmarking := absurd (hphase.symm.trans hmarking) (by simp)

theorem write (h : r.Sound log n lease point) (hphase : r.phase = .collecting)
    (hlsn : next.lastLsn = groupLsn r.resumePoint (r.group.map CommitEntry.unit)) :
    CommitRunner.Sound log n lease point { r with phase := .writing next } where
  epoch := h.epoch
  opened := h.opened
  reached := h.reached
  inside := h.inside
  group := h.group
  fresh hepoch known hknown := h.fresh hepoch known (by rwa [CommitRunner.believed, hphase])
  writing known hwriting := by
    obtain rfl : next = known := by simpa using hwriting
    exact hlsn
  acknowledging known marked hmarking := absurd hmarking (by simp)

/-- After COMMIT the runner knows the point it wrote. -/
theorem commit (h : r.Sound log n lease point) :
    CommitRunner.Sound log (max n r.next) lease next
      { r with phase := .acknowledging next 0 } where
  epoch := h.epoch
  opened := h.opened
  reached := h.reached.trans (le_max_left _ _)
  inside := h.inside
  group := h.group
  fresh _ known hknown := Option.some.inj hknown
  writing known hphase := absurd hphase (by simp)
  acknowledging known marked hphase := le_max_right _ _

theorem mark (h : r.Sound log n lease point) (hphase : r.phase = .acknowledging next marked) :
    CommitRunner.Sound log n lease point
      { r with phase := .acknowledging next (marked + 1) } where
  epoch := h.epoch
  opened := h.opened
  reached := h.reached
  inside := h.inside
  group := h.group
  fresh hepoch known hknown := h.fresh hepoch known (by rwa [CommitRunner.believed, hphase])
  writing known hwriting := absurd hwriting (by simp)
  acknowledging known marked' hmarking := h.acknowledging next marked hphase

theorem finish (h : r.Sound log n lease point) (hphase : r.phase = .acknowledging next marked) :
    (r.finished next).Sound log n lease point where
  epoch := h.epoch
  opened := le_rfl
  reached := h.acknowledging next marked hphase
  inside := h.inside
  group := CommitLog.entries_self.symm
  fresh hepoch known hknown := h.fresh hepoch known (by rwa [CommitRunner.believed, hphase])
  writing known hwriting := absurd hwriting (by simp [CommitRunner.finished])
  acknowledging known marked' hmarking := absurd hmarking (by simp [CommitRunner.finished])

end CommitRunner.Sound

namespace CommitRunner

/-- The runner has read so many units more. -/
def read (log : CommitLog C V) (r : CommitRunner C V) (k : ℕ) : CommitRunner C V :=
  { r with
    group := r.group ++ log.entries r.next (r.next + k) r.resumePoint.lastLsn
    next := r.next + k }

variable {log : CommitLog C V} {r : CommitRunner C V}

@[simp] theorem read_zero : r.read log 0 = r := by
  rw [read, Nat.add_zero, CommitLog.entries_self, List.append_nil]

theorem read_succ {k : ℕ} {unit : CompleteUnit C V} (h : log.units[r.next + k]? = some unit) :
    r.read log (k + 1) = (r.read log k).join unit := by
  rw [read, ← Nat.add_assoc, CommitLog.entries_succ (Nat.le_add_right _ _) h, ← List.append_assoc]
  rfl

theorem length_group_read {k : ℕ} (hgroup : r.group = [])
    (hk : r.next + k ≤ log.units.length) : (r.read log k).group.length = k := by
  change (r.group ++ _).length = k
  rw [hgroup, List.nil_append, CommitLog.length_entries hk, Nat.add_sub_cancel_left]

theorem mem_of_mem_group_read {k : ℕ} {unit : CompleteUnit C V} (hgroup : r.group = [])
    (h : unit ∈ (r.read log k).group.map CommitEntry.unit) : unit ∈ log.units := by
  change unit ∈ (r.group ++ _).map CommitEntry.unit at h
  rw [hgroup, List.nil_append, CommitLog.map_unit_entries] at h
  exact MarkedLog.mem_entries_of_mem_segment h

end CommitRunner

/-- The point of a group whose last record can be read. -/
theorem exists_pointFor {connect : PendingRecord C V → ConnectOffsets}
    {group : List (CompleteUnit C V)} (hgroup : group ≠ [])
    (hreadable : ∀ unit ∈ group, ∃ record, unit.records.getLast? = some record ∧
      (connect record).offset.getD ∅ ≠ ∅) (previous : ResumePoint) (commitId snapshotEpoch : ℕ) :
    ∃ point, pointFor connect group previous commitId snapshotEpoch = .ok point := by
  obtain hnil | ⟨front, unit, rfl⟩ := List.eq_nil_or_concat' group
  · exact absurd hnil hgroup
  obtain ⟨record, hrecord, hoffset⟩ := hreadable unit (by simp)
  have hterminal : terminalRecord (front ++ [unit]) = some record := by
    rw [terminalRecord, List.reverse_append, List.reverse_singleton, List.singleton_append,
      List.findSome?_cons, hrecord]
  have hread : terminalReadable connect (front ++ [unit]) = true := by
    rw [terminalReadable, hterminal]
    exact decide_eq_true hoffset
  rw [pointFor, List.getLast?_concat]
  simp [hread]

namespace CommitSystem

variable {log : CommitLog C V} {connect : PendingRecord C V → ConnectOffsets}
  {apply : D → CompleteUnit C V → D} {rows : D} {n m i position : ℕ} {s t : CommitSystem C V D}
  {r q : CommitRunner C V} {point : ResumePoint} {a : CommitStep}

@[simp] theorem set_runner_self (o : Option (CommitRunner C V)) : (s.set i o).runner i = o := by
  simp [set]

theorem set_runner_of_ne {j : ℕ} (h : j ≠ i) (o : Option (CommitRunner C V)) :
    (s.set i o).runner j = s.runner j := by
  simp [set, h]

@[simp] theorem set_runner (s : CommitSystem C V D) (i : ℕ) : s.set i (s.runner i) = s := by
  rw [set, Function.update_eq_self]

theorem set_set (s : CommitSystem C V D) (i : ℕ) (o o' : Option (CommitRunner C V)) :
    (s.set i o).set i o' = s.set i o' := by
  rw [set, set, set, Function.update_idem]

namespace Sound

/-- A runner is replaced. -/
theorem set (h : Sound log apply rows n s) {o : Option (CommitRunner C V)}
    (hsound : ∀ r, o = some r → r.Sound log n s.lease s.point)
    (hone : ∀ r, o = some r → ∀ j q, j ≠ i → s.runner j = some q → q.epoch ≠ r.epoch) :
    Sound log apply rows n (s.set i o) where
  inside := h.inside
  rows := h.rows
  lsn := h.lsn
  acked := h.acked
  runner j r hr := by
    by_cases hji : j = i
    · subst hji
      exact hsound r (by rwa [set_runner_self] at hr)
    · exact h.runner j r (by rwa [set_runner_of_ne hji] at hr)
  one j k r q hr hq heq := by
    by_contra hjk
    simp only [CommitSystem.set, Function.update_apply] at hr hq
    split_ifs at hr hq with hji hki hki
    · exact hjk (hji.trans hki.symm)
    · exact hone r hr k q hki hq heq.symm
    · exact hone q hq j r hji hr heq
    · exact hjk (h.one j k r q hr hq heq)

theorem drop (h : Sound log apply rows n s) : Sound log apply rows n (s.set i none) :=
  h.set (fun _ hr => absurd hr (by simp)) fun _ hr => absurd hr (by simp)

/-- A runner goes on under its epoch. -/
theorem go (h : Sound log apply rows n s) (hr : s.runner i = some r) (hepoch : q.epoch = r.epoch)
    (hq : q.Sound log n s.lease s.point) : Sound log apply rows n (s.set i (some q)) := by
  refine h.set (fun r' hr' => ?_) fun r' hr' j p hji hp heq => hji ?_
  · obtain rfl := Option.some.inj hr'
    exact hq
  · obtain rfl := Option.some.inj hr'
    exact h.one j i p r hp hr (heq.trans hepoch)

/-- Nobody holds a lease that was just raised. -/
theorem raise (h : Sound log apply rows n s) : Sound log apply rows n s.raise where
  inside := h.inside
  rows := h.rows
  lsn := h.lsn
  acked := h.acked
  runner i r hr := by
    have hsound := h.runner i r hr
    exact hsound.stale s.lease.le_succ (Nat.ne_of_lt (Nat.lt_succ_of_le hsound.epoch)) le_rfl
  one := h.one

theorem acknowledge (h : Sound log apply rows n s) (hposition : position ≤ n) :
    Sound log apply rows n (s.acknowledge position) where
  inside := h.inside
  rows := h.rows
  lsn := h.lsn
  acked := max_le h.acked hposition
  runner := h.runner
  one := h.one

/-- The runners besides the one that commits are stale. -/
theorem committed (h : Sound log apply rows n s) (hr : s.runner i = some r)
    (hphase : r.phase = .writing point) (hlease : r.epoch = s.lease) :
    Sound log apply rows (max n r.next) ((s.committed apply r point).set i none) := by
  have hsound := h.runner i r hr
  have hknown : s.point = r.resumePoint :=
    hsound.fresh hlease r.resumePoint (by rw [CommitRunner.believed, hphase])
  have hlsn : r.resumePoint.lastLsn = log.lsnUpTo n := hknown ▸ h.lsn
  constructor
  · exact max_le h.inside hsound.inside
  · calc r.group.foldl (applyEntry apply) s.rows
        = (log.entries r.opened r.next (log.lsnUpTo n)).foldl (applyEntry apply)
            (log.appliedUpTo apply rows n) := by rw [hsound.group, hlsn, h.rows]
      _ = log.appliedUpTo apply rows (max n r.next) :=
          CommitLog.foldl_entries hsound.reached hsound.opened
  · calc point.lastLsn
        = groupLsn r.resumePoint
            ((log.entries r.opened r.next r.resumePoint.lastLsn).map CommitEntry.unit) :=
          (hsound.writing point hphase).trans (by rw [← hsound.group])
      _ = log.lsnUpTo (max n r.next) :=
          CommitLog.groupLsn_entries hsound.reached hsound.opened hlsn
  · exact h.acked.trans (le_max_left _ _)
  · intro j q hq
    by_cases hji : j = i
    · subst hji
      rw [set_runner_self] at hq
      exact absurd hq (by simp)
    · rw [set_runner_of_ne hji] at hq
      exact (h.runner j q hq).stale le_rfl
        (fun heq => hji (h.one j i q r hq hr (heq.trans hlease.symm))) (le_max_left _ _)
  · exact (h.drop (i := i)).one

/-- **Every step keeps the invariant**, at a position that may have moved forward. -/
theorem step (h : Sound log apply rows n s) (hstep : Step log connect apply s a t) :
    ∃ m, n ≤ m ∧ Sound log apply rows m t := by
  cases hstep with
  | @acquire i hnone =>
    refine ⟨n, le_rfl, h.raise.set (fun r hr => ?_) fun r hr j q hji hq => ?_⟩
    · obtain rfl := Option.some.inj hr
      exact .boot
    · obtain rfl := Option.some.inj hr
      exact Nat.ne_of_lt (Nat.lt_succ_of_le (h.runner j q hq).epoch)
  | @start i position r hr hphase hposition =>
    exact ⟨n, le_rfl, h.go hr rfl ((h.runner i r hr).start (hposition.trans h.acked) h.inside)⟩
  | @join i r unit hr hphase hunit =>
    exact ⟨n, le_rfl, h.go hr rfl ((h.runner i r hr).join hphase hunit)⟩
  | @write i commitId snapshotEpoch r point hr hphase hpoint =>
    have hlsn := (pointFor_eq_ok connect hpoint).2.2.1
    exact ⟨n, le_rfl, h.go hr rfl ((h.runner i r hr).write hphase hlsn)⟩
  | @commit i r point hr hphase hlease =>
    refine ⟨max n r.next, le_max_left _ _, ?_⟩
    rw [← set_set (s.committed apply r point) i none]
    refine (h.committed hr hphase hlease).set (fun q hq => ?_) fun q hq j p hji hp heq => hji ?_
    · obtain rfl := Option.some.inj hq
      exact (h.runner i r hr).commit
    · obtain rfl := Option.some.inj hq
      rw [set_runner_of_ne hji] at hp
      exact h.one j i p r hp hr heq
  | @commitLost i r point hr hphase hlease =>
    exact ⟨max n r.next, le_max_left _ _, h.committed hr hphase hlease⟩
  | @mark i marked r point hr hphase hmarked =>
    have hsound := h.runner i r hr
    have hlength : r.group.length = r.next - r.opened := by
      rw [hsound.group, CommitLog.length_entries hsound.inside]
    have hnext := hsound.acknowledging point marked hphase
    have hacked : Sound log apply rows n (s.acknowledge (r.opened + marked + 1)) :=
      h.acknowledge (by omega)
    exact ⟨n, le_rfl, hacked.go hr rfl (hsound.mark hphase)⟩
  | @finish i r point hr hphase =>
    exact ⟨n, le_rfl, h.go hr rfl ((h.runner i r hr).finish hphase)⟩
  | crash => exact ⟨n, le_rfl, h.drop⟩

/-- The position of a run, by induction on its steps. -/
theorem run {l : List CommitStep} (h : Sound log apply rows n s)
    (hrun : Trace (Step log connect apply) s l t) : ∃ m, n ≤ m ∧ Sound log apply rows m t := by
  induction hrun generalizing n with
  | nil => exact ⟨n, le_rfl, h⟩
  | cons hstep _ ih =>
    obtain ⟨m, hnm, hm⟩ := h.step hstep
    obtain ⟨k, hmk, hk⟩ := ih hm
    exact ⟨k, hnm.trans hmk, hk⟩

theorem initial : Sound log apply rows 0 { rows := rows } where
  inside := log.units.length.zero_le
  rows := rfl
  lsn := rfl
  acked := le_rfl
  runner i r hr := absurd hr (by simp)
  one i j r q hr := absurd hr (by simp)

end Sound

theorem acked_le_of_step (hstep : Step log connect apply s a t) : s.acked ≤ t.acked := by
  cases hstep with
  | mark hr hphase hmarked => exact le_max_left _ _
  | _ => exact le_rfl

/-- **Every transaction reaches the destination exactly once.** At any two times of any run, the
destination is the source up to a position that does not go back, the resume point is the greatest
position before it, and nothing beyond it was acknowledged. -/
theorem exactly_once {before after : List CommitStep}
    (hbefore : Trace (Step log connect apply) { rows := rows } before s)
    (hafter : Trace (Step log connect apply) s after t) :
    ∃ n m, n ≤ m ∧ m ≤ log.units.length ∧
      (s.rows = log.appliedUpTo apply rows n ∧ s.point.lastLsn = log.lsnUpTo n ∧ s.acked ≤ n) ∧
      (t.rows = log.appliedUpTo apply rows m ∧ t.point.lastLsn = log.lsnUpTo m ∧ t.acked ≤ m) ∧
      s.point.lastLsn ≤ t.point.lastLsn ∧ s.acked ≤ t.acked := by
  obtain ⟨n, _, hs⟩ := Sound.initial.run hbefore
  obtain ⟨m, hnm, ht⟩ := hs.run hafter
  have hacked : s.acked ≤ t.acked :=
    hafter.invariant (P := fun u => s.acked ≤ u.acked)
      (fun _ _ _ hle hstep => hle.trans (acked_le_of_step hstep)) le_rfl
  have hlsn : s.point.lastLsn ≤ t.point.lastLsn := by
    rw [hs.lsn, ht.lsn]
    exact MarkedLog.upTo_mono hnm
  exact ⟨n, m, hnm, ht.inside, ⟨hs.rows, hs.lsn, hs.acked⟩, ⟨ht.rows, ht.lsn, ht.acked⟩, hlsn,
    hacked⟩

/-! ### Catching up -/

/-- A group of so many units is committed and acknowledged. -/
def commitSteps (i k : ℕ) : List CommitStep :=
  [.write i, .commit i] ++ List.replicate k (.mark i) ++ [.finish i]

/-- A new runner reads from a position on. -/
def startSteps (i position : ℕ) : List CommitStep := [.crash i, .acquire i, .start i position]

theorem acknowledge_set (o : Option (CommitRunner C V)) :
    (s.set i o).acknowledge position = (s.acknowledge position).set i o := rfl

theorem committed_set (o : Option (CommitRunner C V)) :
    (s.set i o).committed apply r point = (s.committed apply r point).set i o := rfl

theorem acknowledge_acknowledge {p q : ℕ} (h : p ≤ q) :
    (s.acknowledge p).acknowledge q = s.acknowledge q := by
  rw [acknowledge, acknowledge, acknowledge, max_assoc, max_eq_right h]

/-- Units are read one by one. -/
theorem trace_join (hr : s.runner i = some r) (hphase : r.phase = .collecting) {k : ℕ}
    (hk : r.next + k ≤ log.units.length) :
    Trace (Step log connect apply) s (List.replicate k (.join i))
      (s.set i (some (r.read log k))) := by
  induction k with
  | zero =>
    rw [List.replicate_zero, CommitRunner.read_zero, ← hr, set_runner]
    exact .nil s
  | succ k ih =>
    have hunit : log.units[r.next + k]? = some log.units[r.next + k] :=
      List.getElem?_eq_getElem (by omega)
    have hstep : Step log connect apply (s.set i (some (r.read log k))) (.join i) _ :=
      .join (set_runner_self _) hphase hunit
    rw [set_set, ← CommitRunner.read_succ hunit] at hstep
    rw [List.replicate_succ']
    exact (ih (by omega)).append (.cons hstep (.nil _))

/-- Units are marked one by one. -/
theorem trace_mark (hr : s.runner i = some r) (hphase : r.phase = .acknowledging point 0)
    (hopened : r.opened ≤ s.acked) {k : ℕ} (hk : k ≤ r.group.length) :
    Trace (Step log connect apply) s (List.replicate k (.mark i))
      ((s.acknowledge (r.opened + k)).set i
        (some { r with phase := .acknowledging point k })) := by
  induction k with
  | zero =>
    have hsame : s.acknowledge r.opened = s := by rw [acknowledge, max_eq_left hopened]
    rw [List.replicate_zero, Nat.add_zero, hsame, ← hphase, ← hr, set_runner]
    exact .nil s
  | succ k ih =>
    have hstep : Step log connect apply ((s.acknowledge (r.opened + k)).set i
        (some { r with phase := .acknowledging point k })) (.mark i) _ :=
      .mark (set_runner_self _) rfl hk
    rw [acknowledge_set, set_set, acknowledge_acknowledge (Nat.le_succ _)] at hstep
    rw [List.replicate_succ']
    exact (ih (Nat.le_of_succ_le hk)).append (.cons hstep (.nil _))

/-- A runner that holds the lease gets its group through. -/
theorem trace_commit (hr : s.runner i = some r) (hphase : r.phase = .collecting)
    (hlease : r.epoch = s.lease) (hopened : r.opened ≤ s.acked) {commitId snapshotEpoch : ℕ}
    (hpoint : pointFor connect (r.group.map CommitEntry.unit) r.resumePoint commitId
      snapshotEpoch = .ok point) :
    Trace (Step log connect apply) s (commitSteps i r.group.length)
      (((s.committed apply r point).acknowledge (r.opened + r.group.length)).set i
        (some (r.finished point))) := by
  have hwrite : Step log connect apply s (.write i) _ := .write hr hphase hpoint
  have hcommit : Step log connect apply (s.set i (some { r with phase := .writing point }))
      (.commit i) _ :=
    .commit (set_runner_self _) rfl hlease
  rw [committed_set, set_set] at hcommit
  -- Its units are marked, up to the last.
  let durable := s.committed apply r point
  let written : CommitRunner C V := { r with phase := .acknowledging point 0 }
  let marked : CommitRunner C V := { r with phase := .acknowledging point r.group.length }
  have hmark : Trace (Step log connect apply) (durable.set i (some written))
      (List.replicate r.group.length (.mark i))
      (((durable.set i (some written)).acknowledge (r.opened + r.group.length)).set i
        (some marked)) :=
    trace_mark (s := durable.set i (some written)) (r := written) (set_runner_self _) rfl hopened
      le_rfl
  rw [acknowledge_set, set_set] at hmark
  have hfinish : Step log connect apply
      ((durable.acknowledge (r.opened + r.group.length)).set i (some marked)) (.finish i) _ :=
    .finish (set_runner_self _) rfl
  rw [set_set] at hfinish
  have hgroup := Trace.append (.cons hwrite (.cons hcommit (.nil _))) hmark
  exact hgroup.append (.cons hfinish (.nil _))

/-- **A new runner can always apply and acknowledge all the rest**, wherever the others died and
wherever before the last acknowledgement it is made to read from. -/
theorem catches_up {before : List CommitStep}
    (hbefore : Trace (Step log connect apply) { rows := rows } before s)
    (hreadable : log.Readable connect) (hposition : position ≤ s.acked)
    (hmore : position < log.units.length) (i : ℕ) :
    ∃ t, Trace (Step log connect apply) s (startSteps i position ++
        List.replicate (log.units.length - position) (.join i) ++
        commitSteps i (log.units.length - position)) t ∧
      t.rows = log.appliedUpTo apply rows log.units.length ∧
      t.point.lastLsn = log.lsnUpTo log.units.length ∧ t.acked = log.units.length := by
  obtain ⟨n, _, hs⟩ := Sound.initial.run hbefore
  let booted : CommitRunner C V := { epoch := s.lease + 1 }
  let reading : CommitRunner C V := { booted with
    resumePoint := s.point, opened := position, next := position, group := [],
    phase := .collecting }
  have hstart : Trace (Step log connect apply) s (startSteps i position)
      (((s.set i none).raise.set i (some booted)).set i (some reading)) :=
    .cons .crash (.cons (.acquire (set_runner_self none))
      (.cons (.start (set_runner_self _) rfl hposition) (.nil _)))
  let k := log.units.length - position
  have hk : reading.next + k = log.units.length := Nat.add_sub_cancel' hmore.le
  have hread := hstart.append (trace_join (set_runner_self _) rfl hk.le)
  rw [set_set] at hread
  -- It commits what it read.
  have hlength : (reading.read log k).group.length = k :=
    CommitRunner.length_group_read rfl hk.le
  have hnonempty : (reading.read log k).group.map CommitEntry.unit ≠ [] := by
    rw [ne_eq, List.map_eq_nil_iff, ← List.length_eq_zero_iff, hlength]
    omega
  obtain ⟨point, hpoint⟩ := exists_pointFor hnonempty
    (fun unit hunit => hreadable unit (CommitRunner.mem_of_mem_group_read rfl hunit))
    (reading.read log k).resumePoint 0 0
  have hrun := hread.append (trace_commit (set_runner_self _) rfl rfl hposition hpoint)
  rw [hlength] at hrun
  -- What is acknowledged is durable, so all of the log is.
  obtain ⟨m, _, hsound⟩ := hs.run hrun
  have hend : max s.acked (position + k) = log.units.length := by
    have hacked := hs.acked.trans hs.inside
    omega
  have hm : m = log.units.length := le_antisymm hsound.inside (hend.symm.le.trans hsound.acked)
  rw [hm] at hsound
  exact ⟨_, hrun, hsound.rows, hsound.lsn, hend⟩

end CommitSystem

namespace Accounts

theorem ordered_twoTransactions : [endedAt 10 (some 10), endedAt 20 (some 20)].Pairwise
    fun a b => b.kind = .txn → a.lastLsn < b.lastLsn := by
  simp [endedAt]

theorem positive_twoTransactions : ∀ unit ∈ [endedAt 10 (some 10), endedAt 20 (some 20)],
    unit.kind = .txn → 0 < unit.lastLsn := by
  simp [endedAt]

/-- A source with two transactions. -/
def twoTransactions : CommitLog Column String where
  units := [endedAt 10 (some 10), endedAt 20 (some 20)]
  ordered := ordered_twoTransactions
  positive := positive_twoTransactions

/-- A destination that keeps the position of everything applied to it. -/
def appendPosition (rows : List ℕ) (unit : CompleteUnit Column String) : List ℕ :=
  rows ++ [unit.lastLsn]

/-- The first transaction is committed, and the answer of its COMMIT is lost. -/
def lostCommit : List CommitStep := [.acquire 0, .start 0 0, .join 0, .write 0, .commitLost 0]

theorem trace_lostCommit : ∃ s, Trace
    (CommitSystem.Step twoTransactions fromHandle appendPosition) { rows := [] } lostCommit s ∧
      s.rows = [10] := by
  have hpoint : pointFor fromHandle [endedAt 10 (some 10)] {} 0 0 = .ok _ := rfl
  exact ⟨_, .cons (.acquire rfl) <|
    .cons (.start (CommitSystem.set_runner_self _) rfl le_rfl) <|
    .cons (.join (CommitSystem.set_runner_self _) rfl rfl) <|
    .cons (.write (CommitSystem.set_runner_self _) rfl hpoint) <|
    .cons (.commitLost (CommitSystem.set_runner_self _) rfl rfl) <| .nil _, rfl⟩

theorem readable_twoTransactions : twoTransactions.Readable fromHandle := by
  intro unit hunit
  obtain rfl | rfl : unit = endedAt 10 (some 10) ∨ unit = endedAt 20 (some 20) := by
    simpa [twoTransactions] using hunit
  · exact ⟨_, rfl, fun h => absurd (congrArg lsnOf h) (by decide)⟩
  · exact ⟨_, rfl, fun h => absurd (congrArg lsnOf h) (by decide)⟩

/-- Nothing is acknowledged after the lost COMMIT. -/
theorem exactly_once_lostCommit : ∃ (s : CommitSystem Column String (List ℕ)) (n : ℕ),
    s.rows = [10] ∧ s.rows = twoTransactions.appliedUpTo appendPosition [] n ∧ s.acked ≤ n := by
  obtain ⟨s, hs, hrows⟩ := trace_lostCommit
  obtain ⟨n, _, _, _, ⟨happlied, _, hacked⟩, _⟩ := CommitSystem.exactly_once hs (.nil s)
  exact ⟨s, n, hrows, happlied, hacked⟩

/-- Another runner reads both transactions, and applies the second one only. -/
theorem catches_up_lostCommit : ∃ s t : CommitSystem Column String (List ℕ),
    s.rows = [10] ∧ t.rows = [10, 20] ∧ t.acked = 2 := by
  obtain ⟨s, hs, hrows⟩ := trace_lostCommit
  obtain ⟨t, _, happlied, _, hacked⟩ :=
    CommitSystem.catches_up hs readable_twoTransactions s.acked.zero_le (by decide) 1
  exact ⟨s, t, hrows, happlied, hacked⟩

end Accounts

end CdcFlight
