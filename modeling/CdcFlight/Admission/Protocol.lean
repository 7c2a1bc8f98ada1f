import CdcFlight.Admission.ExactlyOnce
import CdcFlight.Admission.Retention
import CdcFlight.Lib.Programs

/-!
# The callback loop keeps the commit protocol

A run of the applier, from the point where it has read its resume point, is a run of its runner in
the commit protocol: joining the open group is a step, and `commit_group` is the steps from the
transaction to the last acknowledgement. It is so for every batch, every boundary at which a group
is committed, and every raise that ends the run: before COMMIT, in it, when its answer is lost, and
between two acknowledgements. The callbacks bring the units of the log from the runner's position
on, as the assembler makes them.

The destination is seen through a view of the tables, and its transaction applies the units of the
group one by one as long as no relation is blocked and nothing was staged.

## Main definitions

* `CdcFlight.deliveredUnits`: the units that callbacks bring.
* `CdcFlight.Surroundings.Applies`: what a destination transaction does to the tables.
* `CdcFlight.Applier.Follows`: an applier and its runner.
* `CdcFlight.ApplierSetting.Acknowledged`: what was acknowledged in a run.

## Main results

* `CdcFlight.ApplierSetting.run_follows`: the applier's run is a run of its runner.
* `CdcFlight.ApplierSetting.run_exactly_once`: its transactions reach the destination exactly once.
-/

namespace CdcFlight

open Lib

variable {C V D E R : Type}

/-! ### Deliveries -/

/-- What the assembler makes of a callback. -/
def SourceCallback.assemble (cfg : AssemblerConfig C V) :
    SourceCallback C V → Assemble C V (List (CompleteUnit C V))
  | .record input => feed cfg input.record
  | .notification notice decoded _ =>
    if notice.observation = Observation.completed.name then
      feedSnapshotBoundary (snapshotBoundary decoded)
    else pure []
  | .incrementalNotice decoded finished => pure [incrementalNoticeUnit decoded finished]
  | .policyBoundary => pure []
  | .batchEnd _ _ => pure []

/-- The units that callbacks bring, up to the first refusal of the assembler. -/
def deliveredUnits (cfg : AssemblerConfig C V) : Assembler C V → List (SourceCallback C V) →
    List (CompleteUnit C V)
  | _, [] => []
  | a, callback :: callbacks =>
    match (callback.assemble cfg).run a with
    | .ok units b => units ++ deliveredUnits cfg b callbacks
    | .error _ _ => []

/-- A destination transaction applies the units of the group to the tables one by one, and
observing a unit leaves them alone. This is asked of groups of which nothing was staged, while no
relation is blocked and none is contained: it stands for what planner and writer make of each
transaction. -/
structure Surroundings.Applies (env : Surroundings C V D E) (view : D → R)
    (apply : R → CompleteUnit C V → R) : Prop where
  observe : ∀ unit d d', env.observeUnit unit d = .ok d' → view d' = view d
  commit : ∀ content d d', content.blockedSchemaTables = ∅ →
    (∀ unit ∈ content.units, unit.spilled = false) → env.commit content d = .ok d' →
    view d' = content.units.foldl (fun rows unit => applyEntry apply rows ⟨unit, unit.fenced⟩)
      (view d)

/-- The units of the log are fresh, carry no refusal and are all in memory: none was fenced before
admission, none is rejected while it is sealed, and none has staged rows. -/
def CommitLog.Direct (log : CommitLog C V) : Prop :=
  ∀ unit ∈ log.units, unit.fenced = false ∧ unit.spilled = false ∧ unit.admissionRefusals = []

/-! ### Groups -/

/-- What the resume point takes from a unit. -/
def CompleteUnit.trace (unit : CompleteUnit C V) :
    ℕ × Option String × List (PendingRecord C V) × Option (PendingRecord C V) :=
  (unit.lastLsn, unit.txnId, unit.events, unit.records.getLast?)

/-- A unit of the open group stands for an entry of the runner's group. -/
structure CommitEntry.Enrolled (e : CommitEntry C V) (unit : CompleteUnit C V) : Prop where
  trace : unit.trace = e.unit.trace
  kind : unit.kind = e.unit.kind
  fenced : unit.fenced = e.fenced
  spilled : unit.spilled = false
  /-- The records before the last are retained in order, or not at all. -/
  front : unit.records.dropLast <+: e.unit.records.dropLast
  content : e.unit.kind = .txn → e.fenced = false → unit.content = e.unit.content

/-- The resume point of a group is a function of what it takes from the units. -/
theorem pointFor_congr {connect : PendingRecord C V → ConnectOffsets}
    {group group' : List (CompleteUnit C V)}
    (h : group.map CompleteUnit.trace = group'.map CompleteUnit.trace) (previous : ResumePoint)
    (commitId snapshotEpoch : ℕ) :
    pointFor connect group previous commitId snapshotEpoch =
      pointFor connect group' previous commitId snapshotEpoch := by
  have hmap {α : Type} (f : _ → α) := congrArg (List.map f) h
  have hlsn : groupLsn previous group = groupLsn previous group' := by
    have hpositions := hmap Prod.fst
    rw [List.map_map, List.map_map] at hpositions
    exact congrArg (List.foldl max previous.lastLsn) hpositions
  have hterminal : terminalRecord group = terminalRecord group' := by
    have hrecords := congrArg (fun l => l.reverse.findSome? id) (hmap fun t => t.2.2.2)
    simp only [List.map_map, ← List.map_reverse, List.findSome?_map] at hrecords
    exact hrecords
  have horder : groupTotalOrder group = groupTotalOrder group' := by
    have hevents := congrArg (fun l => l.reverse.findSome? List.getLast?) (hmap fun t => t.2.2.1)
    simp only [List.map_map, ← List.map_reverse, List.findSome?_map] at hevents
    exact congrArg (Option.bind · PendingRecord.totalOrder) hevents
  have hlast : group.getLast?.map CompleteUnit.txnId = group'.getLast?.map CompleteUnit.txnId := by
    have hids := congrArg List.getLast? (hmap fun t => t.2.1)
    rwa [List.map_map, List.map_map, List.getLast?_map, List.getLast?_map] at hids
  simp only [pointFor, groupPartition, groupOffset, terminalReadable, hterminal, hlsn, horder]
  cases hgroup : group.getLast? with
  | none =>
    rw [hgroup, Option.map_none, eq_comm, Option.map_eq_none_iff] at hlast
    rw [hlast]
  | some unit =>
    rw [hgroup, Option.map_some, eq_comm, Option.map_eq_some_iff] at hlast
    obtain ⟨unit', hgroup', htxn⟩ := hlast
    simp only [hgroup', htxn]

/-- A unit of the log as it joins both groups. -/
theorem enrolled_enrol {log : CommitLog C V} (hdirect : log.Direct) {unit : CompleteUnit C V}
    (hunit : unit ∈ log.units) (cfg : AssemblerConfig C V) (env : Surroundings C V D E)
    (s : Applier C V D) :
    CommitEntry.Enrolled ⟨unit, unit.durableAt s.resumePoint.lastLsn⟩
      (s.enrol cfg (Applier.markIgnoredSnapshot env unit)) := by
  obtain ⟨hfenced, hspilled, -⟩ := hdirect unit hunit
  have hlast (records : List (PendingRecord C V)) :
      (if cfg.keepAllRecords then records else lastOnly records).getLast? = records.getLast? := by
    split_ifs
    · rfl
    · exact getLast?_lastOnly records
  have hfront (records : List (PendingRecord C V)) :
      (if cfg.keepAllRecords then records else lastOnly records).dropLast <+: records.dropLast := by
    split_ifs
    · exact List.prefix_rfl
    · rw [dropLast_lastOnly]
      exact List.nil_prefix
  by_cases hignored : (unit.kind = .snapshotChunk && !unit.incremental && truthy unit.schema &&
      truthy unit.table && decide
        (unit.schema.getD "" ++ "." ++ unit.table.getD "" ∈ env.ignoredSourceTables)) = true
  · rw [Applier.markIgnoredSnapshot, if_pos hignored]
    have hkind : unit.kind = .snapshotChunk := by
      simp only [Bool.and_eq_true, decide_eq_true_eq] at hignored
      exact hignored.1.1.1.1
    refine ⟨?_, rfl, ?_, hspilled, hfront _, fun htxn => absurd (hkind.symm.trans htxn) (by decide)⟩
    · rw [CompleteUnit.trace, Applier.enrol, hlast]
      rfl
    · rw [Applier.enrol, hfenced, Bool.false_or]
      rfl
  · rw [Applier.markIgnoredSnapshot, if_neg hignored]
    refine ⟨?_, rfl, ?_, hspilled, hfront _, fun _ hbeyond => ?_⟩
    · rw [CompleteUnit.trace, Applier.enrol, hlast]
      rfl
    · rw [Applier.enrol, hfenced, Bool.false_or]
      rfl
    · have hfree : s.fences unit = false := hbeyond
      change { unit.content with fenced := unit.fenced || s.fences unit } = unit.content
      rw [hfree, Bool.or_false]
      rfl

/-- The two groups do the same to the tables. -/
theorem foldl_enrolled {apply : R → CompleteUnit C V → R} {group : List (CommitEntry C V)}
    {units : List (CompleteUnit C V)} (h : List.Forall₂ CommitEntry.Enrolled group units)
    (rows : R) :
    (units.map CompleteUnit.content).foldl
        (fun rows unit => applyEntry apply rows ⟨unit, unit.fenced⟩) rows =
      group.foldl (applyEntry fun rows unit => apply rows unit.content) rows := by
  induction h generalizing rows with
  | nil => rfl
  | @cons e unit group units he _ ih =>
    have hone : applyEntry apply rows ⟨unit.content, unit.content.fenced⟩ =
        applyEntry (fun rows unit => apply rows unit.content) rows e := by
      change (if unit.kind = .txn && !unit.fenced then _ else _) = _
      rw [applyEntry, he.kind, he.fenced]
      by_cases happlied : (decide (e.unit.kind = .txn) && !e.fenced) = true
      · rw [if_pos happlied, if_pos happlied]
        simp only [Bool.and_eq_true, decide_eq_true_eq, Bool.not_eq_true'] at happlied
        rw [he.content happlied.1 happlied.2]
      · rw [if_neg happlied, if_neg happlied]
    rw [List.map_cons, List.foldl_cons, List.foldl_cons, hone, ih]

theorem map_trace_enrolled {group : List (CommitEntry C V)} {units : List (CompleteUnit C V)}
    (h : List.Forall₂ CommitEntry.Enrolled group units) :
    units.map CompleteUnit.trace = (group.map CommitEntry.unit).map CompleteUnit.trace := by
  induction h with
  | nil => rfl
  | cons he _ ih => rw [List.map_cons, List.map_cons, List.map_cons, ih, he.trace]

theorem spilled_enrolled {group : List (CommitEntry C V)} {units : List (CompleteUnit C V)}
    (h : List.Forall₂ CommitEntry.Enrolled group units) :
    ∀ unit ∈ units.map CompleteUnit.content, unit.spilled = false := by
  induction h with
  | nil => simp
  | cons he _ ih => exact List.forall_mem_cons.2 ⟨he.spilled, ih⟩

/-- The last records of the units from a position up to another. -/
def CommitLog.lastRecords (log : CommitLog C V) (a b : ℕ) : List (Option (PendingRecord C V)) :=
  (log.marked.segment a b).map fun unit => unit.records.getLast?

theorem map_getLast?_enrolled {group : List (CommitEntry C V)} {units : List (CompleteUnit C V)}
    (h : List.Forall₂ CommitEntry.Enrolled group units) :
    (units.map CompleteUnit.records).map List.getLast? =
      (group.map CommitEntry.unit).map fun unit => unit.records.getLast? := by
  have htrace := congrArg (List.map fun t => t.2.2.2) (map_trace_enrolled h)
  rw [List.map_map, List.map_map] at htrace
  rw [List.map_map]
  exact htrace

/-! ### An applier and its runner -/

/-- What the runner sees of the applier besides the tables. -/
structure SeenByRunner (C V : Type) where
  resumePoint : ResumePoint
  units : List (CompleteUnit C V)
  blockedSchemaTables : Finset String
  pendingDiscardedRecords : List (List (PendingRecord C V))
  acknowledged : List (List (PendingRecord C V))
  partlyAcknowledged : List (PendingRecord C V)

/-- What the runner sees of the applier besides the tables. -/
def Applier.seen (s : Applier C V D) : SeenByRunner C V where
  resumePoint := s.resumePoint
  units := s.group.units
  blockedSchemaTables := s.blockedSchemaTables
  pendingDiscardedRecords := s.pendingDiscardedRecords
  acknowledged := s.acknowledged
  partlyAcknowledged := s.partlyAcknowledged

/-- An applier between two callbacks, and its runner: the runner holds the lease and collects, and
both have the same resume point, the same group of units of the log and the same tables. No relation
is blocked and nothing was discarded. -/
structure Applier.Follows (log : CommitLog C V) (view : D → R) (i : ℕ) (s : Applier C V D)
    (sys : CommitSystem C V R) (r : CommitRunner C V) : Prop where
  runner : sys.runner i = some r
  phase : r.phase = .collecting
  /-- Nobody has taken the lease over. -/
  lease : r.epoch = sys.lease
  opened : r.opened ≤ sys.acked
  size : r.opened + r.group.length = r.next
  read : r.group.map CommitEntry.unit = log.marked.segment r.opened r.next
  point : s.resumePoint = r.resumePoint
  group : List.Forall₂ CommitEntry.Enrolled r.group s.group.units
  blocked : s.blockedSchemaTables = ∅
  undiscarded : s.pendingDiscardedRecords = []
  whole : s.partlyAcknowledged = []
  rows : view s.destination = sys.rows

/-- Where a run starts: the state of the protocol, the first unit of the open group, and what was
acknowledged before. -/
structure RunOrigin (C V R : Type) where
  system : CommitSystem C V R
  opened : ℕ
  acknowledged : List (List (PendingRecord C V))

/-- What an applier runs on, seen through a view of the tables. -/
structure ApplierSetting (C V D E R : Type) where
  cfg : AssemblerConfig C V
  env : Surroundings C V D E
  log : CommitLog C V
  view : D → R
  apply : R → CompleteUnit C V → R
  /-- The number of its runner. -/
  runner : ℕ
  applies : env.Applies view apply
  direct : log.Direct
  keepsStreaming : cfg.discardStreaming = false

namespace ApplierSetting

variable (x : ApplierSetting C V D E R)

/-- The protocol that the applier keeps. -/
def Step : CommitSystem C V R → CommitStep → CommitSystem C V R → Prop :=
  CommitSystem.Step x.log x.env.connect fun rows unit => x.apply rows unit.content

/-- In a run the units of the log from its group on up to a position were acknowledged, one after
the other by their last records, and no other unit. -/
def Acknowledged (o : RunOrigin C V R) (c : ℕ) (s : Applier C V D) : Prop :=
  o.opened ≤ c ∧ s.acknowledged.map List.getLast? =
    o.acknowledged.map List.getLast? ++ x.log.lastRecords o.opened c

/-- Records of a unit were marked, but not its last one. -/
def Partly (c : ℕ) (s : Applier C V D) : Prop :=
  ∃ unit, x.log.units[c]? = some unit ∧ s.partlyAcknowledged <+: unit.records.dropLast

/-- The applier stands where its runner may have come, before a position of the log. -/
def Reached (o : RunOrigin C V R) (a : Assembler C V) (k : ℕ) (s : Applier C V D) : Prop :=
  ∃ steps sys r, Trace x.Step o.system steps sys ∧ s.Follows x.log x.view x.runner sys r ∧
    x.Acknowledged o r.opened s ∧ r.next = k ∧ s.assembler = a

/-- The tables and the acknowledgements are as its runner may have left them. A unit of which some
records were marked belongs to the group that the runner was acknowledging. -/
structure Left (o : RunOrigin C V R) (sys : CommitSystem C V R) (c : ℕ) (s : Applier C V D) :
    Prop where
  rows : x.view s.destination = sys.rows
  acknowledged : x.Acknowledged o c s
  acked : c ≤ sys.acked
  partly : s.partlyAcknowledged = [] ∨ x.Partly c s ∧ ∃ r point, sys.runner x.runner = some r ∧
    r.phase = .acknowledging point (c - r.opened) ∧ c < r.next

/-- The run has left the tables and the acknowledgements as its runner may have. -/
def Ended (o : RunOrigin C V R) (s : Applier C V D) : Prop :=
  ∃ steps sys c, Trace x.Step o.system steps sys ∧ x.Left o sys c s

/-- The tables are the log up to a position, nothing before another one is missing, and what the run
has acknowledged, also in part, lies before it. -/
def AppliedFrom (o : RunOrigin C V R) (rows : R) (n : ℕ) (s : Applier C V D) : Prop :=
  ∃ m c, n ≤ m ∧ m ≤ x.log.units.length ∧
    x.view s.destination =
      x.log.appliedUpTo (fun rows unit => x.apply rows unit.content) rows m ∧
    x.Acknowledged o c s ∧ c ≤ m ∧ (s.partlyAcknowledged = [] ∨ x.Partly c s ∧ c < m)

end ApplierSetting

section Programs

variable {x : ApplierSetting C V D E R} {o : RunOrigin C V R} {a b : Assembler C V} {k c : ℕ}
  {s t : Applier C V D} {sys : CommitSystem C V R} {r : CommitRunner C V}

/-- The runner does not see the rest of the applier. -/
theorem Applier.Follows.of_eq {log : CommitLog C V} {view : D → R} {i : ℕ}
    (h : s.Follows log view i sys r) (hseen : t.seen = s.seen)
    (hrows : view t.destination = view s.destination) : t.Follows log view i sys r where
  runner := h.runner
  phase := h.phase
  lease := h.lease
  opened := h.opened
  size := h.size
  read := h.read
  point := (congrArg SeenByRunner.resumePoint hseen).trans h.point
  group := by
    have hunits : t.group.units = s.group.units := congrArg SeenByRunner.units hseen
    rw [hunits]
    exact h.group
  blocked := (congrArg SeenByRunner.blockedSchemaTables hseen).trans h.blocked
  undiscarded := (congrArg SeenByRunner.pendingDiscardedRecords hseen).trans h.undiscarded
  whole := (congrArg SeenByRunner.partlyAcknowledged hseen).trans h.whole
  rows := hrows.trans h.rows

/-- The group is committed and acknowledged on both sides. -/
theorem Applier.Follows.finished {log : CommitLog C V} {view : D → R} {i : ℕ}
    (h : s.Follows log view i sys r) (apply : R → CompleteUnit C V → R) {point : ResumePoint}
    (hpoint : t.resumePoint = point) (hgroup : t.group.units = [])
    (hblocked : t.blockedSchemaTables = s.blockedSchemaTables)
    (hundiscarded : t.pendingDiscardedRecords = []) (hwhole : t.partlyAcknowledged = [])
    (hrows : view t.destination = r.group.foldl (applyEntry apply) sys.rows) :
    t.Follows log view i (((sys.committed apply r point).acknowledge
      (r.opened + r.group.length)).set i (some (r.finished point))) (r.finished point) where
  runner := CommitSystem.set_runner_self _
  phase := rfl
  lease := h.lease
  opened := h.size ▸ le_max_right _ _
  size := rfl
  read := MarkedLog.segment_self.symm
  point := hpoint
  group := hgroup ▸ .nil
  blocked := hblocked.trans h.blocked
  undiscarded := hundiscarded
  whole := hwhole
  rows := hrows

namespace ApplierSetting

theorem Acknowledged.of_eq (h : x.Acknowledged o c s) (heq : t.acknowledged = s.acknowledged) :
    x.Acknowledged o c t := ⟨h.1, heq ▸ h.2⟩

/-- Units of the open group are acknowledged after those before it. -/
theorem Acknowledged.append (h : x.Acknowledged o r.opened s)
    (hfollows : s.Follows x.log x.view x.runner sys r) (whole : ℕ)
    (heq : t.acknowledged = s.acknowledged ++ (s.group.units.map CompleteUnit.records).take whole) :
    x.Acknowledged o (min r.next (r.opened + whole)) t := by
  have hopened : r.opened ≤ min r.next (r.opened + whole) :=
    le_min (hfollows.size ▸ Nat.le_add_right _ _) (Nat.le_add_right _ _)
  refine ⟨h.1.trans hopened, ?_⟩
  rw [heq, List.map_append, h.2, List.map_take, map_getLast?_enrolled hfollows.group,
    hfollows.read, ← List.map_take, MarkedLog.take_segment, CommitLog.lastRecords,
    CommitLog.lastRecords, MarkedLog.segment_append h.1 hopened, List.map_append, List.append_assoc]

/-- A record that is marked of a unit of the open group, short of the last. -/
theorem partly_of_enrolled (hfollows : s.Follows x.log x.view x.runner sys r) {whole : ℕ}
    (hwhole : whole < r.group.length) (records : ℕ) (heq : t.partlyAcknowledged =
      ((s.group.units.map CompleteUnit.records)[whole]?.getD []).dropLast.take records) :
    x.Partly (r.opened + whole) t := by
  have hlength := hfollows.group.length_eq
  have hentry : r.group[whole]? = some r.group[whole] := List.getElem?_eq_getElem hwhole
  have hbound : whole < s.group.units.length := hlength ▸ hwhole
  have hunit : s.group.units[whole]? = some s.group.units[whole] :=
    List.getElem?_eq_getElem hbound
  have henrolled := hfollows.group.get hwhole hbound
  have hread : (x.log.marked.segment r.opened r.next)[whole]? = some r.group[whole].unit := by
    rw [← hfollows.read, List.getElem?_map, hentry]
    rfl
  refine ⟨r.group[whole].unit, MarkedLog.getElem?_segment hread, ?_⟩
  · rw [heq, List.getElem?_map, hunit]
    exact (List.take_prefix _ _).trans henrolled.front

theorem Reached.of_eq (h : x.Reached o a k s) (hassembler : t.assembler = b)
    (hseen : t.seen = s.seen) (hrows : x.view t.destination = x.view s.destination) :
    x.Reached o b k t := by
  obtain ⟨steps, sys, r, hsteps, hfollows, hacknowledged, hnext, -⟩ := h
  exact ⟨steps, sys, r, hsteps, hfollows.of_eq hseen hrows,
    hacknowledged.of_eq (congrArg SeenByRunner.acknowledged hseen), hnext, hassembler⟩

theorem Reached.assembler_eq (h : x.Reached o a k s) : s.assembler = a := by
  obtain ⟨_, _, _, _, _, _, _, hassembler⟩ := h
  exact hassembler

theorem Reached.ended (h : x.Reached o a k s) (hrows : t.destination = s.destination)
    (hacknowledged : t.acknowledged = s.acknowledged)
    (hpartly : t.partlyAcknowledged = s.partlyAcknowledged) : x.Ended o t := by
  obtain ⟨steps, sys, r, hsteps, hfollows, hack, -, -⟩ := h
  exact ⟨steps, sys, r.opened, hsteps, hrows ▸ hfollows.rows, hack.of_eq hacknowledged,
    hfollows.opened, Or.inl (hpartly.trans hfollows.whole)⟩

/-- A refusal that is contained gives the group up. -/
theorem Ended.containRefusal (h : x.Ended o s) (failure : AdmissionFailure E) :
    x.Ended o (s.containRefusal failure) := by
  obtain ⟨steps, sys, c, hsteps, hleft⟩ := h
  have hreset : x.Ended o s.resetGroup :=
    ⟨steps, sys, c, hsteps, hleft.rows, hleft.acknowledged, hleft.acked, hleft.partly⟩
  cases failure with
  | refused refusal =>
    rw [Applier.containRefusal]
    split_ifs
    · exact hreset
    · exact ⟨steps, sys, c, hsteps, hleft⟩
  | _ => exact ⟨steps, sys, c, hsteps, hleft⟩

/-- A call of the snapshot completion model changes nothing that the runner sees. -/
theorem wp_observing {α : Type} {call : SnapshotCompletion → Observed α}
    {Q : α → Applier C V D → Prop} {P : Applier C V D → Prop}
    (hok : ∀ value c, Q value { s with snapshotCompletion := c })
    (herror : ∀ c, P { s with snapshotCompletion := c }) :
    wp (Applier.observing call : Admit C V D E α) Q P s := by
  rw [wp, EStateM.run, Applier.observing]
  cases call s.snapshotCompletion with
  | ok value c => exact hok value c
  | error e c => exact herror c

/-- What comes after the units of the group has no records. -/
theorem partly_of_length_le {whole : ℕ} (hundiscarded : s.pendingDiscardedRecords = [])
    (hwhole : s.group.units.length ≤ whole) (completes : Bool) (d : D) (records : ℕ) :
    (s.acknowledgeFirst completes d whole records).partlyAcknowledged = [] := by
  have hnone : (if s.group.isSnapshot then s.pendingDiscardedRecords else []) = [] := by
    rw [hundiscarded, ite_self]
  have hlength : (s.group.units.map CompleteUnit.records).length ≤ whole := by
    rwa [List.length_map]
  simp only [Applier.acknowledgeFirst, hnone, List.append_nil]
  rw [List.getElem?_append_right hlength, List.getElem?_map]
  cases (if completes then s.pendingSnapshotNotifications else [])[whole -
      (s.group.units.map CompleteUnit.records).length]? with
  | none => exact List.take_nil
  | some notification => exact List.take_nil

/-- The applier gives its group up when the answer of COMMIT is lost, and its runner stops there. -/
theorem ended_of_lostAnswer {steps : List CommitStep} (hsteps : Trace x.Step o.system steps sys)
    (hfollows : s.Follows x.log x.view x.runner sys r) (hack : x.Acknowledged o r.opened s)
    {commitId snapshotEpoch : ℕ} {point : ResumePoint}
    (hpoint : pointFor x.env.connect (r.group.map CommitEntry.unit) r.resumePoint commitId
      snapshotEpoch = .ok point) {d : D}
    (hrows : x.view d = r.group.foldl (applyEntry fun rows unit => x.apply rows unit.content)
      sys.rows) : x.Ended o { s.resetGroup with destination := d } := by
  let durable := sys.committed (fun rows unit => x.apply rows unit.content) r point
  have hwrite : x.Step sys (.write x.runner) _ := .write hfollows.runner hfollows.phase hpoint
  have hlost : x.Step (sys.set x.runner (some { r with phase := .writing point }))
      (.commitLost x.runner) (durable.set x.runner none) := by
    have hstep : x.Step (sys.set x.runner (some { r with phase := .writing point }))
        (.commitLost x.runner) _ :=
      .commitLost (CommitSystem.set_runner_self _) rfl hfollows.lease
    rwa [CommitSystem.committed_set, CommitSystem.set_set] at hstep
  exact ⟨_, _, r.opened, hsteps.append (.cons hwrite (.cons hlost (.nil _))), hrows, hack,
    hfollows.opened, Or.inl hfollows.whole⟩

/-- The applier gives its group up when an acknowledgement raises, and its runner stops there. -/
theorem ended_of_marking {steps : List CommitStep} (hsteps : Trace x.Step o.system steps sys)
    (hfollows : s.Follows x.log x.view x.runner sys r) (hack : x.Acknowledged o r.opened s)
    {commitId snapshotEpoch : ℕ} {point : ResumePoint}
    (hpoint : pointFor x.env.connect (r.group.map CommitEntry.unit) r.resumePoint commitId
      snapshotEpoch = .ok point) {d : D}
    (hrows : x.view d = r.group.foldl (applyEntry fun rows unit => x.apply rows unit.content)
      sys.rows) (completes : Bool) (whole records : ℕ) :
    x.Ended o (s.acknowledgeFirst completes d whole records) := by
  let durable := sys.committed (fun rows unit => x.apply rows unit.content) r point
  let written : CommitRunner C V := { r with phase := .acknowledging point 0 }
  have hwrite : x.Step sys (.write x.runner) _ := .write hfollows.runner hfollows.phase hpoint
  have hcommit : x.Step (sys.set x.runner (some { r with phase := .writing point }))
      (.commit x.runner) (durable.set x.runner (some written)) := by
    have hstep : x.Step (sys.set x.runner (some { r with phase := .writing point }))
        (.commit x.runner) _ :=
      .commit (CommitSystem.set_runner_self _) rfl hfollows.lease
    rwa [CommitSystem.committed_set, CommitSystem.set_set] at hstep
  have hrunner : (durable.set x.runner (some written)).runner x.runner = some written :=
    CommitSystem.set_runner_self _
  have hopened : written.opened ≤ (durable.set x.runner (some written)).acked := hfollows.opened
  have hmark : Trace x.Step (durable.set x.runner (some written))
      (List.replicate (min whole r.group.length) (.mark x.runner)) _ :=
    CommitSystem.trace_mark hrunner rfl hopened (min_le_right whole r.group.length)
  have hsize := hfollows.size
  have hposition : min r.next (r.opened + whole) = r.opened + min whole r.group.length := by
    omega
  have hlength : s.group.units.length = r.group.length := hfollows.group.length_eq.symm
  have hundiscarded : (if s.group.isSnapshot then s.pendingDiscardedRecords else []) = [] := by
    rw [hfollows.undiscarded, ite_self]
  refine ⟨_, _, min r.next (r.opened + whole),
    (hsteps.append (.cons hwrite (.cons hcommit (.nil _)))).append hmark, hrows,
    hack.append hfollows whole ?_, ?_, ?_⟩
  · simp only [Applier.acknowledgeFirst, hundiscarded, List.take_nil, List.append_nil]
  · rw [hposition]
    exact le_max_right _ _
  · by_cases hwhole : whole < r.group.length
    · have hnext : r.opened + whole < r.next := by omega
      rw [hposition, min_eq_left hwhole.le]
      refine Or.inr ⟨partly_of_enrolled hfollows hwhole records ?_, _, point,
        CommitSystem.set_runner_self _, ?_, hnext⟩
      · have hunits : whole < (s.group.units.map CompleteUnit.records).length := by
          rwa [List.length_map, hlength]
        simp only [Applier.acknowledgeFirst, hundiscarded, List.append_nil,
          List.getElem?_append_left hunits]
      · change CommitPhase.acknowledging point _ = .acknowledging point
          (r.opened + whole - r.opened)
        rw [Nat.add_sub_cancel_left]
    · exact Or.inl (partly_of_length_le hfollows.undiscarded (by omega) completes d records)

/-- **A committed group is the steps of its runner** from the transaction to the last
acknowledgement, or to the one that raises. -/
theorem Reached.commitTransaction (h : x.Reached o a k s) (trigger : String)
    (completes : Bool) :
    wp (Applier.commitTransaction x.env trigger completes) (fun _ => x.Reached o a k)
      (x.Ended o) s := by
  have hended : x.Ended o s.resetGroup := h.ended rfl rfl rfl
  obtain ⟨steps, sys, r, hsteps, hfollows, hack, hnext, hassembler⟩ := h
  rw [Applier.commitTransaction, wp_bind, wp_get]
  cases hpoint : pointFor x.env.connect s.group.units s.resumePoint s.commitId
      (x.env.snapshotEpoch s.destination) with
  | error error => exact hended
  | ok point =>
    dsimp only
    cases hcommit : x.env.commit (s.content trigger point) s.destination with
    | error error => exact hended
    | ok d =>
      rw [pointFor_congr (map_trace_enrolled hfollows.group), hfollows.point] at hpoint
      have hrows : x.view d = r.group.foldl
          (applyEntry fun rows unit => x.apply rows unit.content) sys.rows := by
        rw [← foldl_enrolled hfollows.group, ← hfollows.rows]
        exact x.applies.commit _ _ _ hfollows.blocked (spilled_enrolled hfollows.group) hcommit
      dsimp only
      rcases x.env.cutOff (s.content trigger point) s.destination with
        _ | error | ⟨whole, records, error⟩
      · simp only [wp_bind, wp_set]
        have hgroup : Trace x.Step sys (CommitSystem.commitSteps x.runner r.group.length)
            _ :=
          CommitSystem.trace_commit hfollows.runner hfollows.phase hfollows.lease hfollows.opened
            hpoint
        have hundiscarded :
            (if s.group.isSnapshot then s.pendingDiscardedRecords else []) = [] := by
          rw [hfollows.undiscarded, ite_self]
        have hacknowledged : x.Acknowledged o r.next (s.acknowledge completes d) := by
          have hall := hack.append (t := s.acknowledge completes d) hfollows r.group.length ?_
          · rwa [hfollows.size, min_self] at hall
          · have hlength : (s.group.units.map CompleteUnit.records).length ≤ r.group.length := by
              rw [List.length_map, hfollows.group.length_eq]
            simp only [Applier.acknowledge, hundiscarded, List.append_nil,
              List.take_of_length_le hlength]
        have hnone : (if s.group.isSnapshot then [] else s.pendingDiscardedRecords) = [] := by
          rw [hfollows.undiscarded, ite_self]
        have hfinished (c : SnapshotCompletion) : x.Reached o a k (Applier.install trigger point
            { s.acknowledge completes d with snapshotCompletion := c }) :=
          ⟨_, _, r.finished point, hsteps.append hgroup,
            hfollows.finished _ rfl rfl rfl hnone hfollows.whole hrows,
            hacknowledged.of_eq rfl, hnext, hassembler⟩
        refine wp_observing (fun _ c => hfinished c) fun c => ?_
        exact ⟨_, _, r.next, hsteps.append hgroup, hrows, hacknowledged.of_eq rfl,
          hfollows.size ▸ le_max_right _ _, Or.inl hfollows.whole⟩
      · exact ended_of_lostAnswer hsteps hfollows hack hpoint hrows
      · exact ended_of_marking hsteps hfollows hack hpoint hrows completes whole records

theorem Reached.commitGroup (h : x.Reached o a k s) (trigger : String) :
    wp (Applier.commitGroup x.env trigger) (fun _ => x.Reached o a k) (x.Ended o) s := by
  rw [Applier.commitGroup, wp_bind, wp_get]
  refine wp_ite (fun _ => h) fun _ => ?_
  rcases s.snapshotCompletion.commitReady s.group.units with error | _ | _
  · exact h.ended rfl rfl rfl
  · exact h
  · cases s.snapshotCompletion.willCompleteAfterCommit s.group.units with
    | error error => exact h.ended rfl rfl rfl
    | ok completes => exact h.commitTransaction trigger completes

/-- A group is committed and the result is not looked at. -/
theorem Reached.commitIgnored (h : x.Reached o a k s) (trigger : String) :
    wp (do let _ ← Applier.commitGroup x.env trigger : Admit C V D E Unit)
      (fun _ => x.Reached o a k) (x.Ended o) s := by
  rw [wp_bind]
  exact wp_mono (h.commitGroup trigger) (fun _ s₁ h₁ => h₁) fun _ h₁ => h₁

/-! ### Admission -/

theorem Reached.observing (h : x.Reached o a k s) {α : Type}
    (call : SnapshotCompletion → Observed α) :
    wp (Applier.observing call : Admit C V D E α) (fun _ => x.Reached o a k) (x.Ended o)
      s :=
  wp_observing (fun _ _ => h.of_eq h.assembler_eq rfl rfl) fun _ => h.ended rfl rfl rfl

theorem Reached.onlyIf (h : x.Reached o a k s) (b : Bool) {step : Admit C V D E Unit}
    (hstep : wp step (fun _ => x.Reached o a k) (x.Ended o) s) :
    wp (Applier.onlyIf b step) (fun _ => x.Reached o a k) (x.Ended o) s :=
  wp_ite (fun _ => hstep) fun _ => h

theorem Reached.mustCommit (h : x.Reached o a k s) (result : CommitResult) :
    wp (Applier.mustCommit result : Admit C V D E Unit) (fun _ => x.Reached o a k)
      (x.Ended o) s :=
  wp_ite (fun _ => h) fun _ => h.ended rfl rfl rfl

theorem Reached.crossBoundary (h : x.Reached o a k s) (idle : Bool) :
    wp (Applier.crossBoundary x.env idle) (fun _ => x.Reached o a k) (x.Ended o) s := by
  rw [Applier.crossBoundary, wp_bind, wp_get]
  refine wp_ite (fun _ => ?_) fun _ => h.onlyIf _ (h.observing _)
  rw [wp_bind]
  refine wp_mono (h.commitGroup _) (fun result s₁ h₁ => ?_) fun _ h₁ => h₁
  rw [wp_bind]
  exact wp_mono (h₁.onlyIf _ (h₁.observing _)) (fun _ s₂ h₂ => h₂.mustCommit result) fun _ h₂ => h₂

theorem Reached.changePhase (h : x.Reached o a k s) (isSnapshot wasSnapshot : Bool) :
    wp (Applier.changePhase x.env isSnapshot wasSnapshot) (fun _ => x.Reached o a k)
      (x.Ended o) s := by
  rw [Applier.changePhase, wp_bind, wp_get]
  refine h.onlyIf _ ?_
  rw [wp_bind]
  exact wp_mono (h.commitGroup _) (fun result s₁ h₁ => h₁.mustCommit result) fun _ h₁ => h₁

/-- **A unit joins the group**, on both sides. -/
theorem Reached.appendUnit (h : x.Reached o a k s) {unit : CompleteUnit C V}
    (hunit : x.log.units[k]? = some unit) (isSnapshot : Bool) :
    x.Reached o a (k + 1) (Applier.appendUnit x.cfg
      (Applier.markIgnoredSnapshot x.env unit) isSnapshot s) := by
  obtain ⟨steps, sys, r, hsteps, hfollows, hack, rfl, hassembler⟩ := h
  have hjoin : x.Step sys (.join x.runner) (sys.set x.runner (some (r.join unit))) :=
    .join hfollows.runner hfollows.phase hunit
  have henrolled := enrolled_enrol x.direct (List.mem_of_getElem? hunit) x.cfg x.env s
  rw [hfollows.point] at henrolled
  refine ⟨_, _, r.join unit, hsteps.append (.cons hjoin (.nil _)), ?_, hack.of_eq rfl, rfl,
    hassembler⟩
  constructor
  · exact CommitSystem.set_runner_self _
  · exact hfollows.phase
  · exact hfollows.lease
  · exact hfollows.opened
  · rw [CommitRunner.join, List.length_append, List.length_singleton, ← Nat.add_assoc,
      hfollows.size]
  · have hle : r.opened ≤ r.next := hfollows.size ▸ Nat.le_add_right _ _
    change (r.group ++ [_]).map CommitEntry.unit = x.log.marked.segment r.opened (r.next + 1)
    rw [MarkedLog.segment_succ hle hunit, List.map_append, hfollows.read]
    rfl
  · exact hfollows.point
  · exact List.rel_append hfollows.group (.cons henrolled .nil)
  · exact hfollows.blocked
  · exact hfollows.undiscarded
  · exact hfollows.whole
  · exact hfollows.rows

theorem Reached.admitAs (h : x.Reached o a k s) {unit : CompleteUnit C V}
    (hunit : x.log.units[k]? = some unit) (isSnapshot idle : Bool) :
    wp (Applier.admitAs x.cfg x.env (Applier.markIgnoredSnapshot x.env unit) isSnapshot idle)
      (fun _ => x.Reached o a (k + 1)) (x.Ended o) s := by
  rw [Applier.admitAs, wp_bind, wp_modify, wp_bind, wp_get, wp_bind]
  have hnoted : x.Reached o a k (s.note (.classified
      (Applier.markIgnoredSnapshot x.env unit).content isSnapshot idle)) :=
    h.of_eq h.assembler_eq rfl rfl
  refine wp_mono (hnoted.onlyIf _ (hnoted.crossBoundary idle)) (fun _ s₁ h₁ => ?_) fun _ h₁ => h₁
  rw [wp_bind]
  refine wp_mono (h₁.changePhase isSnapshot _) (fun _ s₂ h₂ => ?_) fun _ h₂ => h₂
  rw [wp_bind]
  refine wp_mono (h₂.onlyIf _ (h₂.observing _)) (fun _ s₃ h₃ => ?_) fun _ h₃ => h₃
  exact h₃.appendUnit hunit isSnapshot

theorem Reached.observeUnit (h : x.Reached o a k s) (unit : CompleteUnit C V) :
    wp (Applier.observeUnit x.env unit) (fun _ => x.Reached o a k) (x.Ended o) s := by
  rw [Applier.observeUnit, wp_bind, wp_get]
  cases hobserve : x.env.observeUnit unit.content s.destination with
  | error refusal => exact h.ended rfl rfl rfl
  | ok d => exact h.of_eq h.assembler_eq rfl (x.applies.observe _ _ _ hobserve)

theorem admissionRefusals_markIgnoredSnapshot (unit : CompleteUnit C V) :
    (Applier.markIgnoredSnapshot x.env unit).admissionRefusals = unit.admissionRefusals := by
  rw [Applier.markIgnoredSnapshot]
  split_ifs
  · rfl
  · rfl

/-- A unit of the log is added, and the runner reads it. -/
theorem Reached.addUnit (h : x.Reached o a k s) {unit : CompleteUnit C V}
    (hunit : x.log.units[k]? = some unit) :
    wp (Applier.addUnit x.cfg x.env unit) (fun _ => x.Reached o a (k + 1)) (x.Ended o)
      s := by
  have hjoin : wp (Applier.admitUnit x.cfg x.env (Applier.markIgnoredSnapshot x.env unit))
      (fun _ => x.Reached o a (k + 1)) (x.Ended o) s := by
    rw [Applier.admitUnit, wp_bind, admissionRefusals_markIgnoredSnapshot,
      (x.direct unit (List.mem_of_getElem? hunit)).2.2, List.forM_nil, wp_pure, wp_bind]
    exact wp_mono (h.observeUnit _) (fun _ s₁ h₁ => h₁.admitAs hunit _ _) fun _ h₁ => h₁
  rw [wp, EStateM.run, Applier.addUnit, x.keepsStreaming, Bool.false_and, if_neg Bool.false_ne_true]
  generalize hrun : (Applier.admitUnit x.cfg x.env (Applier.markIgnoredSnapshot x.env unit)).run s =
    outcome
  cases outcome with
  | ok value t => exact (wp_of_ok hrun).1 hjoin
  | error failure t => exact ((wp_of_error hrun).1 hjoin).containRefusal failure

theorem Reached.addUnits {units rest : List (CompleteUnit C V)} (h : x.Reached o a k s)
    (hunits : x.log.units.drop k = units ++ rest) :
    wp (Applier.addUnits x.cfg x.env units) (fun _ => x.Reached o a (k + units.length))
      (x.Ended o) s := by
  induction units generalizing k s with
  | nil => exact h
  | cons unit units ih =>
    have hunit : x.log.units[k]? = some unit := by
      rw [← List.head?_drop, hunits, List.cons_append, List.head?_cons]
    have hrest : x.log.units.drop (k + 1) = units ++ rest := by
      rw [← List.drop_drop, hunits, List.cons_append, List.drop_one, List.tail_cons]
    rw [Applier.addUnits, List.forM_cons, wp_bind]
    refine wp_mono (h.addUnit hunit) (fun _ s₁ h₁ => ?_) fun _ h₁ => h₁
    rw [List.length_cons, Nat.add_comm units.length, ← Nat.add_assoc]
    exact ih h₁ hrest

/-! ### Callbacks -/

/-- A call of the assembler changes nothing else that the runner sees. -/
theorem Reached.assembling (h : x.Reached o a k s)
    (call : Assemble C V (List (CompleteUnit C V))) :
    wp (Applier.assembling x.cfg call : Admit C V D E _)
      (fun units t => ∃ b, call.run a = .ok units b ∧ x.Reached o b k t) (x.Ended o) s := by
  have hreserve (calls : List (SpillCall C V)) (b : Assembler C V) :
      x.Reached o b k (Applier.reserveCommitId x.cfg calls { s with assembler := b }) := by
    rw [Applier.reserveCommitId]
    split_ifs
    · exact h.of_eq rfl rfl rfl
    · exact h.of_eq rfl rfl rfl
  rw [wp, EStateM.run, Applier.assembling, h.assembler_eq]
  cases hcall : call.run a with
  | ok units b => exact ⟨b, rfl, hreserve _ b⟩
  | error refusal b => exact h.ended rfl rfl rfl

/-- What a callback brings is read by the runner. -/
def Handled (x : ApplierSetting C V D E R) (o : RunOrigin C V R) (a : Assembler C V) (k : ℕ)
    (callback : SourceCallback C V) (t : Applier C V D) : Prop :=
  ∃ units b, (callback.assemble x.cfg).run a = .ok units b ∧
    x.Reached o b (k + units.length) t

theorem Reached.addAssembled (h : x.Reached o a k s) {callback : SourceCallback C V}
    {call : Assemble C V (List (CompleteUnit C V))} (hcall : callback.assemble x.cfg = call)
    (hnext : ∀ units b, (callback.assemble x.cfg).run a = .ok units b →
      units <+: x.log.units.drop k) :
    wp (Applier.assembling x.cfg call >>= Applier.addUnits x.cfg x.env)
      (fun _ => x.Handled o a k callback) (x.Ended o) s := by
  rw [wp_bind]
  refine wp_mono (h.assembling call) (fun units s₁ h₁ => ?_) fun _ h₁ => h₁
  obtain ⟨b, hrun, h₁⟩ := h₁
  rw [← hcall] at hrun
  obtain ⟨rest, hrest⟩ := hnext units b hrun
  exact wp_mono (h₁.addUnits hrest.symm) (fun _ s₂ h₂ => ⟨units, b, hrun, h₂⟩) fun _ h₂ => h₂

/-- **One callback**: the units that the assembler makes of it are read, and a group may be
committed. -/
theorem Reached.handle (h : x.Reached o a k s) (callback : SourceCallback C V)
    (hnext : ∀ units b, (callback.assemble x.cfg).run a = .ok units b →
      units <+: x.log.units.drop k) :
    wp (Applier.handle x.cfg x.env callback) (fun _ => x.Handled o a k callback)
      (x.Ended o) s := by
  cases callback with
  | record input => exact h.addAssembled rfl hnext
  | notification notice decoded handle =>
    rw [Applier.handle, Applier.handleNotification, wp_bind, wp_get]
    refine wp_ite (fun _ => h.ended rfl rfl rfl) fun _ =>
      wp_ite (fun _ => h.ended rfl rfl rfl) fun _ => ?_
    rw [wp_bind]
    refine wp_mono (h.observing _) (fun _ s₁ h₁ => ?_) fun _ h₁ => h₁
    rw [wp_bind, wp_modify]
    have hkept : x.Reached o a k { s₁ with
        pendingSnapshotNotifications := s₁.pendingSnapshotNotifications ++ [handle] } :=
      h₁.of_eq h₁.assembler_eq rfl rfl
    refine wp_ite (fun hcompleted => ?_) fun hcompleted => ?_
    · exact hkept.addAssembled (if_pos (of_decide_eq_true hcompleted)) hnext
    · have hnone : (SourceCallback.notification notice decoded handle).assemble x.cfg = pure [] :=
        if_neg fun heq => hcompleted (decide_eq_true heq)
      exact ⟨[], a, by rw [hnone]; rfl, hkept⟩
  | incrementalNotice decoded finished =>
    obtain ⟨rest, hrest⟩ := hnext _ a rfl
    have hunit : x.log.units[k]? = some (incrementalNoticeUnit decoded finished) := by
      rw [← List.head?_drop, ← hrest, List.singleton_append, List.head?_cons]
    exact wp_mono (h.addUnit hunit) (fun _ s₁ h₁ => ⟨_, a, rfl, h₁⟩) fun _ h₁ => h₁
  | policyBoundary =>
    rw [Applier.handle, wp_bind, wp_get]
    exact wp_mono (h.onlyIf _ (h.commitIgnored _)) (fun _ s₁ h₁ => ⟨[], a, rfl, h₁⟩) fun _ h₁ => h₁
  | batchEnd trigger due =>
    rw [Applier.handle, Applier.commitDue, wp_bind, wp_get]
    exact wp_mono (h.onlyIf _ (h.commitIgnored _)) (fun _ s₁ h₁ => ⟨[], a, rfl, h₁⟩) fun _ h₁ => h₁

/-- **The callback loop**, by induction on the callbacks. -/
theorem Reached.run (h : x.Reached o a k s) {callbacks : List (SourceCallback C V)}
    (hdelivered : deliveredUnits x.cfg a callbacks <+: x.log.units.drop k) :
    wp (Applier.run x.cfg x.env callbacks)
      (fun _ t => ∃ b, x.Reached o b (k + (deliveredUnits x.cfg a callbacks).length) t)
      (x.Ended o) s := by
  induction callbacks generalizing a k s with
  | nil => exact ⟨a, h⟩
  | cons callback callbacks ih =>
    have hnext (units : List (CompleteUnit C V)) (b : Assembler C V)
        (hrun : (callback.assemble x.cfg).run a = .ok units b) :
        deliveredUnits x.cfg a (callback :: callbacks) =
          units ++ deliveredUnits x.cfg b callbacks := by
      rw [deliveredUnits, hrun]
    rw [Applier.run, List.forM_cons, wp_bind]
    refine wp_mono (h.handle callback fun units b hrun => ?_) (fun _ s₁ h₁ => ?_) fun _ h₁ => h₁
    · rw [hnext units b hrun] at hdelivered
      exact (List.prefix_append _ _).trans hdelivered
    · obtain ⟨units, b, hrun, h₁⟩ := h₁
      obtain ⟨rest, hrest⟩ := hdelivered
      rw [hnext units b hrun, List.length_append, ← Nat.add_assoc]
      rw [hnext units b hrun, List.append_assoc] at hrest
      refine ih h₁ ⟨rest, ?_⟩
      rw [← List.drop_drop, ← hrest, List.drop_left]

end ApplierSetting

end Programs

/-! ### Runs -/

namespace ApplierSetting

variable {x : ApplierSetting C V D E R} {s : Applier C V D} {sys : CommitSystem C V R}
  {r : CommitRunner C V} {callbacks : List (SourceCallback C V)}

/-- A run that starts from an applier and its runner. -/
def originOf (s : Applier C V D) (sys : CommitSystem C V R) (r : CommitRunner C V) :
    RunOrigin C V R where
  system := sys
  opened := r.opened
  acknowledged := s.acknowledged

theorem reached_origin (h : s.Follows x.log x.view x.runner sys r) :
    x.Reached (originOf s sys r) s.assembler r.next s := by
  have hnone : x.log.lastRecords r.opened r.opened = [] := by
    rw [CommitLog.lastRecords, MarkedLog.segment_self, List.map_nil]
  refine ⟨[], sys, r, .nil sys, h, ⟨le_rfl, ?_⟩, rfl, rfl⟩
  rw [originOf, hnone, List.append_nil]

/-- **A run of the applier is a run of its runner.** If it returns, its runner has read all that
was delivered, and the run has acknowledged the units before the open group; if it raises, also
from a lost COMMIT on or between two acknowledgements, the tables and the acknowledgements are as
its runner left them. -/
theorem run_follows (h : s.Follows x.log x.view x.runner sys r)
    (hdelivered : deliveredUnits x.cfg s.assembler callbacks <+: x.log.units.drop r.next) :
    wp (Applier.run x.cfg x.env callbacks)
      (fun _ t => ∃ steps sys' r', Trace x.Step sys steps sys' ∧
        t.Follows x.log x.view x.runner sys' r' ∧
        x.Acknowledged (originOf s sys r) r'.opened t ∧
        r'.next = r.next + (deliveredUnits x.cfg s.assembler callbacks).length)
      (x.Ended (originOf s sys r)) s := by
  refine wp_mono ((reached_origin h).run hdelivered) (fun _ t ht => ?_) fun _ ht => ht
  obtain ⟨_, steps, sys', r', hsteps, hfollows, hack, hnext, _⟩ := ht
  exact ⟨steps, sys', r', hsteps, hfollows, hack, hnext⟩

/-- **The applier's transactions reach the destination exactly once**, however often the log was
read before and wherever the run ends, and nothing is acknowledged before it is there. -/
theorem run_exactly_once {rows : R} {before : List CommitStep}
    (hbefore : Trace x.Step { rows := rows } before sys)
    (h : s.Follows x.log x.view x.runner sys r)
    (hdelivered : deliveredUnits x.cfg s.assembler callbacks <+: x.log.units.drop r.next) :
    ∃ n, x.view s.destination =
        x.log.appliedUpTo (fun rows unit => x.apply rows unit.content) rows n ∧
      wp (Applier.run x.cfg x.env callbacks)
        (fun _ => x.AppliedFrom (originOf s sys r) rows n)
        (x.AppliedFrom (originOf s sys r) rows n) s := by
  obtain ⟨n, _, hsound⟩ := CommitSystem.Sound.initial.run hbefore
  have hends (t : Applier C V D) (ht : x.Ended (originOf s sys r) t) :
      x.AppliedFrom (originOf s sys r) rows n t := by
    obtain ⟨steps, sys', c, hsteps, hleft⟩ := ht
    obtain ⟨m, hnm, hm⟩ := hsound.run hsteps
    refine ⟨m, c, hnm, hm.inside, hleft.rows.trans hm.rows, hleft.acknowledged,
      hleft.acked.trans hm.acked, hleft.partly.imp_right fun ⟨hpartly, q, point, hq, hphase, hlt⟩ =>
        ⟨hpartly, hlt.trans_le ((hm.runner _ q hq).acknowledging point _ hphase)⟩⟩
  refine ⟨n, h.rows.trans hsound.rows,
    wp_mono ((reached_origin h).run hdelivered) (fun _ t ht => ?_) hends⟩
  obtain ⟨b, ht⟩ := ht
  exact hends t (ht.ended rfl rfl rfl)

end ApplierSetting

namespace Accounts

/-- A destination that keeps the position of everything applied to it, and a commit that is cut
off. -/
def positions (cutOff : Option (CutOff Unit)) : Surroundings Column String (List ℕ) Unit where
  connect := fromHandle
  observeUnit _ d := .ok d
  snapshotEpoch _ := 0
  commit content d := .ok <| content.units.foldl
    (fun rows unit => applyEntry appendPosition rows ⟨unit, unit.fenced⟩) d
  cutOff _ _ := cutOff
  ignoredSourceTables := ∅

theorem applies_positions (cutOff : Option (CutOff Unit)) :
    (positions cutOff).Applies id appendPosition where
  observe _ _ _ h := (Except.ok.inj h).symm
  commit _ _ _ _ _ h := (Except.ok.inj h).symm

/-- A transaction, and the end of a batch at which its group is due. It is irreducible, so that a
statement about the run of the batch is not evaluated where it is elaborated. -/
@[irreducible] def dueBatch : List (SourceCallback Column String) :=
  callbacksOf (messageTransaction "audit") ++ [.batchEnd "interval" fun _ _ => true]

/-- The transactions that the assembler makes of the batch. -/
def dueUnits : List (CompleteUnit Column String) := deliveredUnits {} {} dueBatch

theorem dueUnits_facts : dueUnits.map (fun unit =>
    (unit.kind, unit.lastLsn, unit.fenced, unit.spilled, unit.admissionRefusals.isEmpty)) =
      [(.txn, 210, false, false, true)] := by
  decide +kernel

theorem exists_dueUnits : ∃ unit, dueUnits = [unit] ∧ unit.kind = .txn ∧ unit.lastLsn = 210 ∧
    unit.fenced = false ∧ unit.spilled = false ∧ unit.admissionRefusals = [] := by
  obtain ⟨unit, hunit, hfacts⟩ := List.map_eq_singleton_iff.1 dueUnits_facts
  simp only [Prod.mk.injEq, List.isEmpty_iff] at hfacts
  exact ⟨unit, hunit, hfacts⟩

theorem ordered_dueUnits : dueUnits.Pairwise fun a b => b.kind = .txn → a.lastLsn < b.lastLsn := by
  obtain ⟨unit, hunit, -⟩ := exists_dueUnits
  rw [hunit]
  exact List.pairwise_singleton _ _

theorem positive_dueUnits : ∀ unit ∈ dueUnits, unit.kind = .txn → 0 < unit.lastLsn := by
  obtain ⟨unit, hunit, -, hlsn, -⟩ := exists_dueUnits
  rw [hunit]
  simp [hlsn]

/-- A source with this transaction. -/
def dueLog : CommitLog Column String where
  units := dueUnits
  ordered := ordered_dueUnits
  positive := positive_dueUnits

theorem direct_dueLog : dueLog.Direct := by
  obtain ⟨unit, hunit, -, -, hdirect⟩ := exists_dueUnits
  change ∀ u ∈ dueUnits, _
  rw [hunit]
  simpa using hdirect

/-- An applier that is delivered the transaction. -/
def delivering (cutOff : Option (CutOff Unit)) :
    ApplierSetting Column String (List ℕ) Unit (List ℕ) where
  cfg := {}
  env := positions cutOff
  log := dueLog
  view := id
  apply := appendPosition
  runner := 0
  applies := applies_positions cutOff
  direct := direct_dueLog
  keepsStreaming := rfl

/-- A runner that has read nothing yet. -/
def reader : CommitRunner Column String := { epoch := 1, phase := .collecting }

/-- The destination before the transaction is read. -/
def beforeBatch : CommitSystem Column String (List ℕ) :=
  { lease := 1, runner := Function.update (fun _ => none) 0 (some reader), rows := [] }

/-- The applier before the transaction is read. -/
def waiting : Applier Column String (List ℕ) := Applier.fresh (.ofTables false ∅) {} 1 []

theorem trace_beforeBatch (cutOff : Option (CutOff Unit)) :
    Trace (delivering cutOff).Step { rows := [] } [.acquire 0, .start 0 0] beforeBatch := by
  have hstart : Trace (delivering cutOff).Step { rows := [] } [.acquire 0, .start 0 0] _ :=
    .cons (.acquire rfl) <| .cons (.start (CommitSystem.set_runner_self _) rfl le_rfl) <| .nil _
  rw [CommitSystem.set_set] at hstart
  exact hstart

theorem follows_waiting (cutOff : Option (CutOff Unit)) :
    waiting.Follows dueLog (delivering cutOff).view 0 beforeBatch reader where
  runner := rfl
  phase := rfl
  lease := rfl
  opened := le_rfl
  size := rfl
  read := MarkedLog.segment_self.symm
  point := rfl
  group := .nil
  blocked := rfl
  undiscarded := rfl
  whole := rfl
  rows := rfl

theorem prefix_dueBatch (cutOff : Option (CutOff Unit)) :
    deliveredUnits (delivering cutOff).cfg waiting.assembler dueBatch <+:
      (delivering cutOff).log.units.drop reader.next := by
  change dueUnits <+: dueUnits.drop 0
  rw [List.drop_zero]

theorem length_dueUnits : dueUnits.length = 1 := by
  obtain ⟨unit, hunit, -⟩ := exists_dueUnits
  rw [hunit, List.length_singleton]

theorem run_follows_dueBatch : dueUnits.length = 1 ∧
    wp (Applier.run (delivering none).cfg (delivering none).env dueBatch)
      (fun _ t => ∃ steps sys' r', Trace (delivering none).Step beforeBatch steps sys' ∧
        t.Follows (delivering none).log (delivering none).view (delivering none).runner sys' r' ∧
        (delivering none).Acknowledged (ApplierSetting.originOf waiting beforeBatch reader)
          r'.opened t ∧
        r'.next = reader.next +
          (deliveredUnits (delivering none).cfg waiting.assembler dueBatch).length)
      ((delivering none).Ended (ApplierSetting.originOf waiting beforeBatch reader)) waiting :=
  ⟨length_dueUnits,
    ApplierSetting.run_follows (x := delivering none) (follows_waiting none) (prefix_dueBatch none)⟩

/-- The answer of the COMMIT is lost. -/
def losing : ApplierSetting Column String (List ℕ) Unit (List ℕ) :=
  delivering (some (.lostAnswer ()))

theorem run_exactly_once_dueBatch : ∃ n, losing.view waiting.destination =
      losing.log.appliedUpTo (fun rows unit => losing.apply rows unit.content) [] n ∧
    wp (Applier.run losing.cfg losing.env dueBatch)
      (fun _ => losing.AppliedFrom (ApplierSetting.originOf waiting beforeBatch reader) [] n)
      (losing.AppliedFrom (ApplierSetting.originOf waiting beforeBatch reader) [] n) waiting :=
  ApplierSetting.run_exactly_once (trace_beforeBatch _) (follows_waiting _) (prefix_dueBatch _)

end Accounts

end CdcFlight
