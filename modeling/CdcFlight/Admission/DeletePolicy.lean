import CdcFlight.Assembler.Staging
import CdcFlight.Fold.State
import CdcFlight.Identity.Stable
import CdcFlight.Lease.Fenced
import CdcFlight.Lib.Checks
import CdcFlight.Lib.Journal

/-!
# Delete policies and transaction boundaries

`applier.request_delete_policy` with the places a delete mode passes through: the stamp of
`_sanitize_record`, the planner's resolution for an event without one, and `table_work.work_for`. A
requested policy waits until no transaction is open, and a group that is buffered then is committed
first.

The steps of a run are chosen by the environment, and so is what a commit meets: whether the
snapshot observations let it proceed, which events never reach `work_for`, which turn out to be
replays, where the schema epochs cut the rows, and whether a statement raises. What the policy gate
does to a record beside the stamp is not part of this module.

## Main definitions

* `CdcFlight.DeleteModeResolver`: a policy, and the mode it resolves.
* `CdcFlight.PolicyStream.step`: requests, records, admission and commits.
* `CdcFlight.PolicyCommit.Respects`: a commit respects the transaction boundaries.

## Main results

* `CdcFlight.PolicyStream.respects_run`: in which runs every commit respects them.
-/

namespace CdcFlight

open Lib

variable {C V : Type}

/-! ### Policies -/

/-- `str.strip`. -/
def strip (s : String) : String :=
  String.ofList ((s.toList.dropWhile isSpace).reverse.dropWhile isSpace).reverse

/-- `_canonical_table`; `none` where it raises. -/
def canonicalTable (normalize : String → String) (value : String) : Option String :=
  match (strip value).toList.splitOn '.' with
  | [schema, table] =>
    let schema := strip (String.ofList schema)
    let table := strip (String.ofList table)
    if schema ≠ "" ∧ table ≠ "" then some (normalize schema ++ "." ++ normalize table) else none
  | _ => none

/-- `DeleteModeResolver`. The overrides are kept under canonical names. -/
structure DeleteModeResolver where
  globalMode : DeleteMode := .hard
  overrides : Dict String DeleteMode := ∅
  epoch : ℕ := 1
  epoch_pos : 1 ≤ epoch
  digest : String

/-- `DeleteModeResolver.resolve`; `none` where it raises. -/
def DeleteModeResolver.resolve (policy : DeleteModeResolver) (normalize : String → String)
    (qualifiedTable : Option String) : Option DeleteMode :=
  if truthy qualifiedTable then
    (canonicalTable normalize (qualifiedTable.getD "")).map fun table =>
      (policy.overrides.get? table).getD policy.globalMode
  else some policy.globalMode

/-- What `_sanitize_record` writes on a record. -/
def DeleteModeResolver.stamp (policy : DeleteModeResolver) (mode : DeleteMode)
    (rec : PendingRecord C V) : PendingRecord C V :=
  { rec with
    deleteMode := some mode
    deletePolicyEpoch := policy.epoch
    deletePolicyDigest := some policy.digest }

/-- The record carries the mode that a policy resolves for it. -/
def StampedBy (normalize : String → String) (policy : DeleteModeResolver)
    (e : PendingRecord C V) : Prop :=
  ∃ mode, policy.resolve normalize e.qualifiedTable = some mode ∧ e.deleteMode = some mode

theorem stampedBy_stamp {normalize : String → String} {policy : DeleteModeResolver}
    {mode : DeleteMode} {rec : PendingRecord C V}
    (h : policy.resolve normalize rec.qualifiedTable = some mode) :
    StampedBy normalize policy (policy.stamp mode rec) :=
  ⟨mode, h, rfl⟩

/-- The fields that the assembler writes play no part in the stamp. -/
theorem StampedBy.of_origin {normalize : String → String} {policy : DeleteModeResolver}
    {e e' : PendingRecord C V} (h : StampedBy normalize policy e') (heq : e.origin = e'.origin) :
    StampedBy normalize policy e := by
  have hmode : e.origin.deleteMode = e'.origin.deleteMode := by rw [heq]
  have htable : e.origin.qualifiedTable = e'.origin.qualifiedTable := by rw [heq]
  change e.deleteMode = e'.deleteMode at hmode
  change e.qualifiedTable = e'.qualifiedTable at htable
  rw [StampedBy, hmode, htable]
  exact h

/-! ### Planning -/

/-- What the planner finds around it. -/
structure PolicySetting (C V : Type) where
  cfg : AssemblerConfig C V
  /-- `naming.normalize`. -/
  normalize : String → String
  /-- `snapshots.target_table`. -/
  targetTable : PendingRecord C V → String
  /-- The images of a staged record as they are read back. -/
  readBack : PendingRecord C V → StoredImages C V

/-- A unit on its way to a commit, with the policies that were active when the first event of its
transaction was admitted and when it was completed. -/
structure AdmittedUnit (C V : Type) where
  unit : CompleteUnit C V
  admittedUnder : DeleteModeResolver
  completedUnder : DeleteModeResolver
  fenced : Bool := false

/-- The staged rows of a unit, as they are read back. -/
def AdmittedUnit.stagedRows (setting : PolicySetting C V) (calls : List (SpillCall C V))
    (a : AdmittedUnit C V) : List (PendingRecord C V) :=
  (staged calls a.unit.spillUnitSeq).map fun e => reload (setting.readBack e) a.unit.commitLsn e

/-- The rows that `add_unit` goes through. -/
def AdmittedUnit.rows (setting : PolicySetting C V) (calls : List (SpillCall C V))
    (a : AdmittedUnit C V) : List (AdmittedUnit C V × PendingRecord C V) :=
  if a.fenced || a.unit.kind = .control || a.unit.ignored then []
  else (a.stagedRows setting calls ++ a.unit.events).map fun e => (a, e)

/-- What a commit meets. -/
structure CommitAttempt (C V : Type) where
  /-- `snapshot_completion.commit_ready`. -/
  ready : Bool := true
  /-- No statement of the transaction raises. -/
  succeeds : Bool := true
  /-- How many rows each plan of the group takes but the last. -/
  slices : List ℕ := []
  /-- Whether an event gets as far as `work_for`: no watermark, no containment, no ignored,
  excluded or blocked table and no history table is in the way. -/
  passes : PendingRecord C V → Bool := fun _ => true
  /-- Whether the ledgers know the event. -/
  replayed : PendingRecord C V → Bool := fun _ => false

/-- A delete that is written. -/
structure DeleteWrite (C V : Type) where
  unit : AdmittedUnit C V
  event : PendingRecord C V
  mode : DeleteMode

/-- The mode that `_collect` and `_truncate` hand to `work_for`; `none` where resolving raises. -/
def plannedMode (setting : PolicySetting C V) (policy : DeleteModeResolver)
    (event : PendingRecord C V) : Option (Option DeleteMode) :=
  if event.kind = .truncate then some none
  else match event.deleteMode with
    | some mode => some (some mode)
    | none => (policy.resolve setting.normalize event.qualifiedTable).map some

/-- `work_for`; `none` where it refuses. -/
def workFor (work : Dict String (TableWork C V)) (target : String) (unit : CompleteUnit C V)
    (event : PendingRecord C V) (mode : Option DeleteMode) : Option (TableWork C V) :=
  match (observe event mode).run ((work.get? target).getD
      (.create target event (unit.kind = .snapshotChunk) unit.incremental mode)) with
  | .ok _ item => some item
  | .error _ _ => none

/-- The mode a delete is written with: a keyless operation has a mode of its own. -/
def writtenMode (item : TableWork C V) (event : PendingRecord C V) : DeleteMode :=
  if item.keyless then event.deleteMode.getD .hard else item.deleteMode

/-- One row of a plan; `none` where it raises. -/
def planRow (setting : PolicySetting C V) (policy : DeleteModeResolver)
    (attempt : CommitAttempt C V)
    (plan : Dict String (TableWork C V) × List (DeleteWrite C V))
    (row : AdmittedUnit C V × PendingRecord C V) :
    Option (Dict String (TableWork C V) × List (DeleteWrite C V)) :=
  let event := row.2
  if event.kind = .message || !(truthy event.schema && truthy event.table) ||
      !attempt.passes event then some plan
  else do
    let mode ← plannedMode setting policy event
    let target := setting.targetTable event
    let item ← workFor plan.1 target row.1.unit event mode
    if event.kind ≠ .truncate && attempt.replayed event then
      -- a replay does not leave behind an item that it has opened
      return (if plan.1.contains target then plan.1.set target item else plan.1, plan.2)
    else
      return (plan.1.set target item, plan.2 ++
        if event.op = some .delete ∧ event.kind ≠ .truncate then
          [⟨row.1, event, writtenMode item event⟩]
        else [])

/-- The rows of one plan. -/
def planRows (setting : PolicySetting C V) (policy : DeleteModeResolver)
    (attempt : CommitAttempt C V) (rows : List (AdmittedUnit C V × PendingRecord C V)) :
    Option (List (DeleteWrite C V)) :=
  (rows.foldlM (planRow setting policy attempt) (∅, [])).map Prod.snd

/-- The rows, cut where the schema epochs change. -/
def cutRows {α : Type} : List ℕ → List α → List (List α)
  | [], rows => [rows]
  | n :: sizes, rows => rows.take n :: cutRows sizes (rows.drop n)

/-- The deletes that a group writes. -/
def planGroup (setting : PolicySetting C V) (policy : DeleteModeResolver)
    (attempt : CommitAttempt C V) (calls : List (SpillCall C V))
    (group : List (AdmittedUnit C V)) : Option (List (DeleteWrite C V)) :=
  ((cutRows attempt.slices (group.flatMap (AdmittedUnit.rows setting calls))).mapM
    (planRows setting policy attempt)).map List.flatten

/-! ### Runs -/

/-- A commit, with what had been fed by then. -/
structure PolicyCommit (C V : Type) where
  atBoundary : Bool
  units : List (AdmittedUnit C V)
  writes : List (DeleteWrite C V)
  inputs : List (Input C V)
  session : Session C V

/-- The part of the applier that a delete policy passes through. -/
structure PolicyStream (C V : Type) where
  deletePolicy : DeleteModeResolver
  pending : Option DeleteModeResolver := none
  /-- The policy that was active when the first event of the open transaction was admitted. -/
  admittedUnder : DeleteModeResolver := deletePolicy
  inputs : List (Input C V) := []
  session : Session C V := {}
  /-- The units that have left the assembler and not yet been admitted. -/
  queue : List (AdmittedUnit C V) := []
  group : List (AdmittedUnit C V) := []
  commits : List (PolicyCommit C V) := []
  stopped : Bool := false

/-- What can happen to the applier. -/
inductive PolicyStep (C V : Type)
  | request (policy : DeleteModeResolver)
  | record (rec : PendingRecord C V) (attempt : CommitAttempt C V)
  | boundary (rec : PendingRecord C V)
  /-- A unit that is made of an incremental notification. -/
  | notice (unit : CompleteUnit C V)
  | join (fenced : Bool)
  /-- A unit of a throwaway slot. -/
  | discard
  | commit (attempt : CommitAttempt C V)

namespace PolicyStream

variable (setting : PolicySetting C V)

/-- `request_delete_policy`. -/
def request (policy : DeleteModeResolver) (s : PolicyStream C V) : PolicyStream C V :=
  { s with pending := if policy.digest = s.deletePolicy.digest then none else some policy }

/-- `commit_group`. A raise rolls the group back and ends the run. -/
def commitGroup (atBoundary : Bool) (attempt : CommitAttempt C V) (s : PolicyStream C V) :
    PolicyStream C V :=
  if s.group.isEmpty || !attempt.ready then s
  else match planGroup setting s.deletePolicy attempt s.session.state.spillCalls s.group with
    | none => { s with group := [], stopped := true }
    | some writes =>
      if attempt.succeeds then
        { s with
          group := []
          commits := s.commits ++ [⟨atBoundary, s.group, writes, s.inputs, s.session⟩] }
      else { s with group := [], stopped := true }

/-- `_activate_delete_policy_at_boundary`. -/
def activate (attempt : CommitAttempt C V) (s : PolicyStream C V) : PolicyStream C V :=
  match s.pending with
  | none => s
  | some pending =>
    if s.session.state.txn.isSome then s
    else
      let activated := { s with deletePolicy := pending, pending := none }
      if !s.group.isEmpty && s.deletePolicy.digest ≠ pending.digest then
        activated.commitGroup setting true attempt
      else activated

/-- The policy under which the first event of the open transaction was admitted, once one more
record arrives. -/
def admitting (s : PolicyStream C V) : DeleteModeResolver :=
  if s.session.state.txn.elim 0 OpenTxn.count = 0 then s.deletePolicy else s.admittedUnder

/-- The units that leave the assembler are queued for admission. -/
def feed (input : Input C V) (s : PolicyStream C V) : PolicyStream C V :=
  let fed := { s with
    inputs := s.inputs ++ [input]
    session := s.session.next setting.cfg input
    admittedUnder := s.admitting }
  match (input.feed setting.cfg).run s.session.state with
  | .ok units _ =>
    { fed with queue := s.queue ++ units.map fun u => ⟨u, s.admitting, s.deletePolicy, false⟩ }
  | .error _ _ => { fed with stopped := true }

/-- `_sanitize_record` and `assembler.feed`. -/
def admitRecord (rec : PendingRecord C V) (s : PolicyStream C V) : PolicyStream C V :=
  if s.stopped then s
  else match s.deletePolicy.resolve setting.normalize rec.qualifiedTable with
    | none => { s with stopped := true }
    | some mode => s.feed setting (.record (s.deletePolicy.stamp mode rec))

/-- One step of a run that has not ended. The units of a record are admitted before the next
record. -/
def step (s : PolicyStream C V) (next : PolicyStep C V) : PolicyStream C V :=
  if s.stopped then s
  else match next with
    | .request policy => s.request policy
    | .record rec attempt =>
      if s.queue.isEmpty then (s.activate setting attempt).admitRecord setting rec else s
    | .boundary rec =>
      if !s.queue.isEmpty then s
      else if s.session.state.txn.isSome then { s with stopped := true }
      else s.feed setting (.boundary rec)
    | .notice unit =>
      if unit.kind = .txn then s
      else { s with queue := s.queue ++ [⟨unit, s.deletePolicy, s.deletePolicy, false⟩] }
    | .join fenced =>
      match s.queue with
      | [] => s
      | a :: rest => { s with queue := rest, group := s.group ++ [{ a with fenced := fenced }] }
    | .discard => { s with queue := s.queue.tail }
    | .commit attempt => s.commitGroup setting false attempt

/-- A run under a policy from the start. -/
def run (policy : DeleteModeResolver) (steps : List (PolicyStep C V)) : PolicyStream C V :=
  steps.foldl (step setting) { deletePolicy := policy }

end PolicyStream

/-! ### What a commit has to respect -/

/-- **A commit respects the transaction boundaries**: every delete of a transaction is written in
the mode of the policy under which its first event was admitted, which is still the active one when
the transaction is completed; and a commit at a boundary has whole transactions only. -/
structure PolicyCommit.Respects (setting : PolicySetting C V) (c : PolicyCommit C V) : Prop where
  written : ∀ w ∈ c.writes, w.unit ∈ c.units ∧ (w.unit.unit.kind = .txn →
    w.unit.admittedUnder.resolve setting.normalize w.event.qualifiedTable = some w.mode)
  completed : ∀ a ∈ c.units, a.unit.kind = .txn → a.completedUnder = a.admittedUnder
  whole : c.atBoundary → c.session.state.txn = none ∧ ∀ a ∈ c.units, a.unit.kind = .txn →
    ∃ before r after, c.inputs = before ++ .record r :: after ∧ r.kind = .txnEnd ∧
      ∃ events, Whole setting.cfg c.session.state.spillCalls
        (Session.run setting.cfg before).since r a.unit events

/-- **The condition**: the policy under which the group is planned resolves every staged delete of
a transaction like the policy under which the transaction was admitted, and in mode soft no row of
the same table is without a key. -/
def PolicyStream.Faithful (setting : PolicySetting C V) (s : PolicyStream C V)
    (policy : DeleteModeResolver) (attempt : CommitAttempt C V) : Prop :=
  ∀ a ∈ s.group, a.unit.kind = .txn → ∀ row ∈ a.rows setting s.session.state.spillCalls,
    row.2 ∈ a.stagedRows setting s.session.state.spillCalls → row.2.op = some .delete →
    attempt.passes row.2 →
    policy.resolve setting.normalize row.2.qualifiedTable =
      a.admittedUnder.resolve setting.normalize row.2.qualifiedTable ∧
    (a.admittedUnder.resolve setting.normalize row.2.qualifiedTable = some .soft →
      ∀ b ∈ s.group, ∀ other ∈ b.rows setting s.session.state.spillCalls,
        setting.targetTable other.2 = setting.targetTable row.2 → other.2.kind ≠ .truncate →
        other.2.key.isSome)

/-- The condition on a step, in the state before it: where it commits a group, at a boundary or
not, the condition holds of the policy under which it does. -/
def PolicyStream.Harmless (setting : PolicySetting C V) (s : PolicyStream C V) :
    PolicyStep C V → Prop
  | .commit attempt => s.Faithful setting s.deletePolicy attempt
  | .record _ attempt => ∀ pending, s.pending = some pending → s.session.state.txn = none →
      s.Faithful setting pending attempt
  | _ => True

/-! ### What a plan writes -/

section Plans

variable {setting : PolicySetting C V} {policy : DeleteModeResolver} {attempt : CommitAttempt C V}
  {rows : List (AdmittedUnit C V × PendingRecord C V)}
  {acc acc' : Dict String (TableWork C V) × List (DeleteWrite C V)}

/-- A row without a key gives its table the keyless identity. -/
def KeylessTarget (setting : PolicySetting C V)
    (rows : List (AdmittedUnit C V × PendingRecord C V)) (target : String) : Prop :=
  ∃ row ∈ rows, setting.targetTable row.2 = target ∧ row.2.kind ≠ .truncate ∧ row.2.key = none

/-- Where the mode of a delete comes from. -/
structure WrittenUnder (setting : PolicySetting C V) (policy : DeleteModeResolver)
    (attempt : CommitAttempt C V) (rows : List (AdmittedUnit C V × PendingRecord C V))
    (w : DeleteWrite C V) : Prop where
  row : (w.unit, w.event) ∈ rows
  delete : w.event.op = some .delete ∧ w.event.kind ≠ .truncate
  passes : attempt.passes w.event
  mode : ∃ mode, plannedMode setting policy w.event = some (some mode) ∧
    (w.mode = mode ∨ w.mode = w.event.deleteMode.getD .hard ∧
      KeylessTarget setting rows (setting.targetTable w.event))

/-- What holds of a plan after some rows. -/
structure Planned (setting : PolicySetting C V) (policy : DeleteModeResolver)
    (attempt : CommitAttempt C V) (rows : List (AdmittedUnit C V × PendingRecord C V))
    (acc : Dict String (TableWork C V) × List (DeleteWrite C V)) : Prop where
  keyless : ∀ target item, acc.1.get? target = some item → item.keyless →
    KeylessTarget setting rows target
  writes : ∀ w ∈ acc.2, WrittenUnder setting policy attempt rows w

theorem KeylessTarget.mono {more : List (AdmittedUnit C V × PendingRecord C V)}
    {target : String} (h : KeylessTarget setting rows target) (hsub : rows ⊆ more) :
    KeylessTarget setting more target := by
  obtain ⟨row, hrow, hrest⟩ := h
  exact ⟨row, hsub hrow, hrest⟩

theorem WrittenUnder.mono {more : List (AdmittedUnit C V × PendingRecord C V)} {w : DeleteWrite C V}
    (h : WrittenUnder setting policy attempt rows w) (hsub : rows ⊆ more) :
    WrittenUnder setting policy attempt more w := by
  obtain ⟨mode, hplanned, hmode⟩ := h.mode
  refine ⟨hsub h.row, h.delete, h.passes, mode, hplanned, hmode.imp_right ?_⟩
  exact fun ⟨hown, hkeyless⟩ => ⟨hown, hkeyless.mono hsub⟩

theorem Planned.mono {more : List (AdmittedUnit C V × PendingRecord C V)}
    (h : Planned setting policy attempt rows acc) (hsub : rows ⊆ more) :
    Planned setting policy attempt more acc :=
  ⟨fun target item hitem hkeyless => (h.keyless target item hitem hkeyless).mono hsub,
    fun w hw => (h.writes w hw).mono hsub⟩

theorem deleteMode_identify (item : TableWork C V) (event : PendingRecord C V) :
    ((item.recordSource event).identify event).deleteMode = item.deleteMode := by
  unfold TableWork.identify TableWork.recordSource
  split_ifs <;> rfl

/-- A table is keyless because it was, or because the event has no key. -/
theorem keyless_identify {item : TableWork C V} {event : PendingRecord C V}
    (h : ((item.recordSource event).identify event).keyless) :
    item.keyless ∨ event.kind ≠ .truncate ∧ event.key = none := by
  unfold TableWork.identify at h
  split_ifs at h with hnew
  · rw [Bool.and_eq_true] at hnew
    exact Or.inr ⟨of_decide_eq_true hnew.2, Option.isNone_iff_eq_none.1 h⟩
  · unfold TableWork.recordSource at h
    split_ifs at h
    · exact Or.inl h
    · exact Or.inl h

/-- The item of a table after an event has the mode of the event. -/
theorem workFor_eq_some {work : Dict String (TableWork C V)} {target : String}
    {unit : CompleteUnit C V} {event : PendingRecord C V} {mode : Option DeleteMode}
    {item : TableWork C V} (h : workFor work target unit event mode = some item) :
    (∀ m, mode = some m → item.deleteMode = m) ∧ (item.keyless →
      (∃ before, work.get? target = some before ∧ before.keyless) ∨
        event.kind ≠ .truncate ∧ event.key = none) := by
  unfold workFor at h
  split at h
  case h_2 => cases h
  case h_1 item' hrun =>
    obtain rfl := Option.some.inj h
    unfold observe at hrun
    rw [EStateM.run_bind, EStateM.run_get] at hrun
    dsimp only at hrun
    split_ifs at hrun with hmode
    · cases hrun
    · rw [not_not] at hmode
      cases hrun
      refine ⟨fun m hm => ?_, fun hkeyless => ?_⟩
      · rw [deleteMode_identify, ← hmode, hm]
        rfl
      · refine (keyless_identify hkeyless).imp_left fun hbefore => ?_
        cases hget : work.get? target with
        | none =>
          rw [hget] at hbefore
          exact absurd hbefore Bool.false_ne_true
        | some before =>
          rw [hget] at hbefore
          exact ⟨before, rfl, hbefore⟩

/-- For a delete the planner resolves a mode. -/
theorem exists_plannedMode {event : PendingRecord C V} {mode : Option DeleteMode}
    (h : plannedMode setting policy event = some mode) (hkind : event.kind ≠ .truncate) :
    ∃ m, mode = some m := by
  unfold plannedMode at h
  rw [if_neg hkind] at h
  split at h
  · exact ⟨_, (Option.some.inj h).symm⟩
  · obtain ⟨m, -, hm⟩ := Option.map_eq_some_iff.1 h
    exact ⟨m, hm.symm⟩

theorem writtenMode_cases {item : TableWork C V} {event : PendingRecord C V} {m : DeleteMode}
    (hdelete : item.deleteMode = m) {target : String}
    (hkeyless : item.keyless → KeylessTarget setting rows target) :
    writtenMode item event = m ∨
      writtenMode item event = event.deleteMode.getD .hard ∧
        KeylessTarget setting rows target := by
  unfold writtenMode
  by_cases hk : item.keyless
  · rw [if_pos hk]
    exact Or.inr ⟨rfl, hkeyless hk⟩
  · rw [if_neg hk]
    exact Or.inl hdelete

/-- **One more row.** -/
theorem Planned.step {row : AdmittedUnit C V × PendingRecord C V}
    (h : Planned setting policy attempt rows acc)
    (hrow : planRow setting policy attempt acc row = some acc') :
    Planned setting policy attempt (rows ++ [row]) acc' := by
  have hold : Planned setting policy attempt (rows ++ [row]) acc :=
    h.mono (List.subset_append_left rows [row])
  have hmem : row ∈ rows ++ [row] := List.mem_append_right _ (List.mem_singleton_self row)
  unfold planRow at hrow
  dsimp only at hrow
  by_cases hskip : (row.2.kind = .message || !(truthy row.2.schema && truthy row.2.table) ||
      !attempt.passes row.2) = true
  · rw [if_pos hskip] at hrow
    obtain rfl := Option.some.inj hrow
    exact hold
  · rw [if_neg hskip] at hrow
    simp only [Bool.or_eq_true, decide_eq_true_eq, Bool.not_eq_true', not_or, Bool.not_eq_false]
      at hskip
    obtain ⟨mode, hmode, hrow⟩ := Option.bind_eq_some_iff.1 hrow
    obtain ⟨item, hitem, hrow⟩ := Option.bind_eq_some_iff.1 hrow
    obtain ⟨hdelete, hkeyless⟩ := workFor_eq_some hitem
    have hitemKeyless (hk : item.keyless) :
        KeylessTarget setting (rows ++ [row]) (setting.targetTable row.2) := by
      rcases hkeyless hk with ⟨before, hget, hbefore⟩ | ⟨hkind, hkey⟩
      · exact hold.keyless _ before hget hbefore
      · exact ⟨row, hmem, rfl, hkind, hkey⟩
    have hset (target : String) (item' : TableWork C V)
        (hget : (acc.1.set (setting.targetTable row.2) item).get? target = some item')
        (hk : item'.keyless) : KeylessTarget setting (rows ++ [row]) target := by
      by_cases htarget : target = setting.targetTable row.2
      · rw [htarget, Dict.get?_set_self] at hget
        obtain rfl := Option.some.inj hget
        rw [htarget]
        exact hitemKeyless hk
      · rw [Dict.get?_set_of_ne _ _ htarget] at hget
        exact hold.keyless target item' hget hk
    by_cases hreplayed : (row.2.kind ≠ .truncate && attempt.replayed row.2) = true
    · rw [if_pos hreplayed] at hrow
      obtain rfl := Option.some.inj hrow
      refine ⟨?_, hold.writes⟩
      dsimp only
      split_ifs
      · exact hset
      · exact hold.keyless
    · rw [if_neg hreplayed] at hrow
      obtain rfl := Option.some.inj hrow
      refine ⟨hset, fun w hw => ?_⟩
      rcases List.mem_append.1 hw with hw | hw
      · exact hold.writes w hw
      · split_ifs at hw with hwrites
        · obtain rfl := List.mem_singleton.1 hw
          obtain ⟨m, rfl⟩ := exists_plannedMode hmode hwrites.2
          exact ⟨hmem, hwrites, hskip.2, m, hmode,
            writtenMode_cases (hdelete m rfl) hitemKeyless⟩
        · cases hw

theorem Planned.foldlM {more : List (AdmittedUnit C V × PendingRecord C V)}
    (h : Planned setting policy attempt rows acc)
    (hfold : more.foldlM (planRow setting policy attempt) acc = some acc') :
    Planned setting policy attempt (rows ++ more) acc' := by
  induction more generalizing rows acc with
  | nil =>
    obtain rfl := Option.some.inj hfold
    rw [List.append_nil]
    exact h
  | cons row more ih =>
    rw [List.foldlM_cons] at hfold
    obtain ⟨next, hrow, hrest⟩ := Option.bind_eq_some_iff.1 hfold
    have hnext := ih (h.step hrow) hrest
    rw [List.append_assoc] at hnext
    exact hnext

theorem flatten_cutRows {α : Type} (sizes : List ℕ) (l : List α) :
    (cutRows sizes l).flatten = l := by
  induction sizes generalizing l with
  | nil => exact List.append_nil l
  | cons n sizes ih => rw [cutRows, List.flatten_cons, ih, List.take_append_drop]

/-- **Where the modes of a group's deletes come from.** -/
theorem writtenUnder_of_planGroup {calls : List (SpillCall C V)} {group : List (AdmittedUnit C V)}
    {writes : List (DeleteWrite C V)}
    (h : planGroup setting policy attempt calls group = some writes) {w : DeleteWrite C V}
    (hw : w ∈ writes) :
    WrittenUnder setting policy attempt (group.flatMap (AdmittedUnit.rows setting calls)) w := by
  obtain ⟨plans, hplans, rfl⟩ := Option.map_eq_some_iff.1 h
  obtain ⟨plan, hplan, hw⟩ := List.mem_flatten.1 hw
  obtain ⟨slice, hslice, hrows⟩ := mem_of_mapM_eq_some hplans hplan
  obtain ⟨acc, hacc, rfl⟩ := Option.map_eq_some_iff.1 hrows
  have hempty : Planned setting policy attempt [] (∅, []) :=
    ⟨fun target item hget => by simp at hget, List.forall_mem_nil _⟩
  have hplanned := hempty.foldlM hacc
  rw [List.nil_append] at hplanned
  refine (hplanned.writes w hw).mono fun row hrow => ?_
  rw [← flatten_cutRows attempt.slices (group.flatMap (AdmittedUnit.rows setting calls))]
  exact List.mem_flatten.2 ⟨slice, hslice, hrow⟩

end Plans

/-! ### The stream -/

section Stream

variable {setting : PolicySetting C V} {s : PolicyStream C V} {attempt : CommitAttempt C V}

/-- What is known of a unit on its way to a commit. -/
structure AdmittedUnit.Settled (setting : PolicySetting C V) (emitted : List (CompleteUnit C V))
    (a : AdmittedUnit C V) : Prop where
  emitted : a.unit ∈ emitted
  completed : a.completedUnder = a.admittedUnder
  stamped : ∀ e ∈ a.unit.events, StampedBy setting.normalize a.admittedUnder e

/-- **The invariant of a run.** While a transaction is open the active policy is the one under
which it was opened. -/
structure PolicyStream.Coupled (setting : PolicySetting C V) (s : PolicyStream C V) : Prop where
  session : s.session = Session.run setting.cfg s.inputs
  opened : ∀ t, s.session.state.txn = some t →
    (t.count ≠ 0 → s.admittedUnder = s.deletePolicy) ∧
      ∀ e ∈ s.session.since, StampedBy setting.normalize s.deletePolicy e
  queue : ∀ a ∈ s.queue, a.unit.kind = .txn → a.Settled setting s.session.emitted
  group : ∀ a ∈ s.group, a.unit.kind = .txn → a.Settled setting s.session.emitted
  commits : ∀ c ∈ s.commits, c.Respects setting

namespace PolicyStream

/-- While a transaction is open, or one opens, its policy is the active one. -/
theorem Coupled.admitting_eq (h : s.Coupled setting) : s.admitting = s.deletePolicy := by
  unfold admitting
  cases htxn : s.session.state.txn with
  | none => exact if_pos rfl
  | some t =>
    split_ifs with hcount
    · rfl
    · exact (h.opened t htxn).1 hcount

/-- **A planned delete has the mode of its transaction.** -/
theorem Coupled.mode_eq (h : s.Coupled setting) {policy : DeleteModeResolver}
    (hfaithful : s.Faithful setting policy attempt) {w : DeleteWrite C V}
    (hw : WrittenUnder setting policy attempt
      (s.group.flatMap (AdmittedUnit.rows setting s.session.state.spillCalls)) w) :
    w.unit ∈ s.group ∧ (w.unit.unit.kind = .txn →
      w.unit.admittedUnder.resolve setting.normalize w.event.qualifiedTable = some w.mode) := by
  obtain ⟨a, ha, hrow⟩ := List.mem_flatMap.1 hw.row
  have hrow' := hrow
  unfold AdmittedUnit.rows at hrow'
  split_ifs at hrow' with hnone
  · cases hrow'
  obtain ⟨e, he, heq⟩ := List.mem_map.1 hrow'
  obtain ⟨rfl, rfl⟩ := Prod.mk.inj heq
  refine ⟨ha, fun hkind => ?_⟩
  obtain ⟨mode, hplanned, hmode⟩ := hw.mode
  unfold plannedMode at hplanned
  rw [if_neg hw.delete.2] at hplanned
  rcases List.mem_append.1 he with hstaged | hmemory
  · obtain ⟨hresolve, hkeyed⟩ := hfaithful w.unit ha hkind _ hrow hstaged hw.delete.1 hw.passes
    have hunstamped : w.event.deleteMode = none := by
      obtain ⟨e', -, he'⟩ := List.mem_map.1 hstaged
      rw [← he']
      rfl
    rw [hunstamped] at hplanned hmode
    obtain ⟨mode', hmode', hsome⟩ := Option.map_eq_some_iff.1 hplanned
    obtain rfl := Option.some.inj hsome
    rw [hresolve] at hmode'
    rcases hmode with hmode | ⟨hmode, other, hother, htarget, hotherKind, hkey⟩
    · rw [hmode', hmode]
    · obtain ⟨b, hb, hbrow⟩ := List.mem_flatMap.1 hother
      cases mode' with
      | hard =>
        rw [hmode', hmode]
        rfl
      | soft =>
        have hsome := hkeyed hmode' b hb other hbrow htarget hotherKind
        rw [hkey] at hsome
        cases hsome
  · obtain ⟨own, hresolve, hstamp⟩ := (h.group w.unit ha hkind).stamped w.event hmemory
    rw [hstamp] at hplanned hmode
    obtain rfl := Option.some.inj (Option.some.inj hplanned)
    rw [hresolve]
    rcases hmode with hmode | ⟨hmode, -⟩
    · rw [hmode]
    · rw [hmode]
      rfl

/-- **A commit respects the transaction boundaries** where the condition holds. -/
theorem Coupled.commitGroup (h : s.Coupled setting) (atBoundary : Bool)
    (hboundary : atBoundary → s.session.state.txn = none)
    (hfaithful : s.Faithful setting s.deletePolicy attempt) :
    (s.commitGroup setting atBoundary attempt).Coupled setting := by
  unfold PolicyStream.commitGroup
  split
  · exact h
  · split
    · exact ⟨h.session, h.opened, h.queue, List.forall_mem_nil _, h.commits⟩
    next writes hplan =>
      split
      · refine ⟨h.session, h.opened, h.queue, List.forall_mem_nil _, fun c hc => ?_⟩
        rcases List.mem_append.1 hc with hc | hc
        · exact h.commits c hc
        · obtain rfl := List.mem_singleton.1 hc
          refine ⟨fun w hw => h.mode_eq hfaithful (writtenUnder_of_planGroup hplan hw),
            fun a ha hkind => (h.group a ha hkind).completed, fun hat => ?_⟩
          refine ⟨hboundary hat, fun a ha hkind => ?_⟩
          have hemitted := (h.group a ha hkind).emitted
          dsimp only
          rw [h.session] at hemitted ⊢
          exact Session.whole_now setting.cfg s.inputs hemitted hkind
      · exact ⟨h.session, h.opened, h.queue, List.forall_mem_nil _, h.commits⟩

theorem Coupled.stop (h : s.Coupled setting) : { s with stopped := true }.Coupled setting :=
  ⟨h.session, h.opened, h.queue, h.group, h.commits⟩

/-- A policy is activated between two transactions only. -/
theorem Coupled.activate (h : s.Coupled setting) (hharmless : ∀ pending,
    s.pending = some pending → s.session.state.txn = none → s.Faithful setting pending attempt) :
    (s.activate setting attempt).Coupled setting := by
  unfold PolicyStream.activate
  cases hpending : s.pending with
  | none => exact h
  | some pending =>
    dsimp only
    split_ifs with hopen hgroup
    · exact h
    · have hnone : s.session.state.txn = none := by simpa using hopen
      have hactivated :
          { s with deletePolicy := pending, pending := none }.Coupled setting := by
        refine ⟨h.session, fun t ht => ?_, h.queue, h.group, h.commits⟩
        rw [show s.session.state.txn = some t from ht] at hnone
        cases hnone
      exact hactivated.commitGroup true (fun _ => hnone) (hharmless pending hpending hnone)
    · have hnone : s.session.state.txn = none := by simpa using hopen
      refine ⟨h.session, fun t ht => ?_, h.queue, h.group, h.commits⟩
      rw [show s.session.state.txn = some t from ht] at hnone
      cases hnone

/-- A notification opens no transaction. -/
theorem next_boundary_txn (cfg : AssemblerConfig C V) {x : Session C V}
    (rec : PendingRecord C V) (hnone : x.state.txn = none) :
    (x.next cfg (.boundary rec)).state.txn = none := by
  rw [Session.next_state]
  show (final ((feedSnapshotBoundary rec).run x.state)).txn = none
  unfold feedSnapshotBoundary
  rw [EStateM.run_bind, EStateM.run_get]
  dsimp only
  split_ifs with hform hopen
  · exact hnone
  · exact hnone
  · rw [EStateM.run_bind, run_closeChunk]
    exact hnone

/-- The events of a transaction that is emitted carry the stamps of the records fed since it
opened. -/
theorem stamped_of_ends {cfg : AssemblerConfig C V} {inputs : List (Input C V)}
    {rec : PendingRecord C V} {t : OpenTxn C V} {u : CompleteUnit C V} {normalize : String → String}
    {policy : DeleteModeResolver} (hends : Ends cfg (Session.run cfg inputs).state rec t u)
    (hsince : ∀ e ∈ (Session.run cfg inputs).since, StampedBy normalize policy e) :
    ∀ e ∈ u.events, StampedBy normalize policy e := by
  intro e he
  obtain ⟨a, htracks⟩ := Session.tracks cfg inputs
  obtain ⟨events, hwhole⟩ := hends.whole htracks
  have hstored := hwhole.stored
  split_ifs at hstored with hdiscard
  · rw [hstored.1] at he
    cases he
  · have horigin : e.origin ∈ events.map PendingRecord.origin := by
      rw [← hstored.1]
      exact List.mem_map_of_mem (List.mem_append_right _ he)
    obtain ⟨e', he', heq⟩ := List.mem_map.1 horigin
    exact (hsince e' (hwhole.since.subset he')).of_origin heq.symm

/-- **One more input**: a record under its stamp, or a notification between two transactions. -/
theorem Coupled.feed (h : s.Coupled setting) {input : Input C V}
    (hinput : StampedBy setting.normalize s.deletePolicy input.pending ∨
      ∃ rec, input = .boundary rec ∧ s.session.state.txn = none) :
    (s.feed setting input).Coupled setting := by
  have hadmitting := h.admitting_eq
  have hsession : s.session.next setting.cfg input =
      Session.run setting.cfg (s.inputs ++ [input]) := by
    rw [Session.run_concat, h.session]
  have hopened : ∀ t, (s.session.next setting.cfg input).state.txn = some t →
      (t.count ≠ 0 → s.admitting = s.deletePolicy) ∧
        ∀ e ∈ (s.session.next setting.cfg input).since,
          StampedBy setting.normalize s.deletePolicy e := by
    intro t ht
    refine ⟨fun _ => hadmitting, fun e he => ?_⟩
    rcases hinput with hstamped | ⟨rec, rfl, hnone⟩
    · rw [Session.next_since, nextSince, ht, Option.isNone_some, if_neg Bool.false_ne_true] at he
      rcases List.mem_append.1 he with he | he
      · cases htxn : s.session.state.txn with
        | none =>
          rw [htxn, Option.isNone_none, if_pos rfl] at he
          cases he
        | some t' =>
          rw [htxn, Option.isNone_some, if_neg Bool.false_ne_true] at he
          exact (h.opened t' htxn).2 e he
      · rw [List.mem_singleton.1 he]
        exact hstamped
    · rw [next_boundary_txn setting.cfg rec hnone] at ht
      cases ht
  unfold PolicyStream.feed
  cases hrun : (input.feed setting.cfg).run s.session.state with
  | error refusal s' =>
    have hemitted : (s.session.next setting.cfg input).emitted = s.session.emitted := by
      rw [Session.next, hrun]
    refine ⟨hsession, hopened, ?_, ?_, h.commits⟩
    · dsimp only
      rw [hemitted]
      exact h.queue
    · dsimp only
      rw [hemitted]
      exact h.group
  | ok units s' =>
    have hemitted : (s.session.next setting.cfg input).emitted = s.session.emitted ++ units := by
      rw [Session.next, hrun]
    have hold {a : AdmittedUnit C V} (ha : a.Settled setting s.session.emitted) :
        a.Settled setting (s.session.next setting.cfg input).emitted := by
      refine ⟨?_, ha.completed, ha.stamped⟩
      rw [hemitted]
      exact List.mem_append_left _ ha.emitted
    refine ⟨hsession, hopened, fun a ha hkind => ?_, fun a ha hkind => hold (h.group a ha hkind),
      h.commits⟩
    rcases List.mem_append.1 ha with ha | ha
    · exact hold (h.queue a ha hkind)
    · obtain ⟨u, hu, rfl⟩ := List.mem_map.1 ha
      obtain ⟨-, t, hends⟩ := input_txn hrun hu hkind
      refine ⟨?_, hadmitting.symm, ?_⟩
      · dsimp only
        rw [hemitted]
        exact List.mem_append_right _ hu
      · have hsince := (h.opened t hends.txn).2
        dsimp only
        rw [hadmitting]
        rw [h.session] at hends hsince
        exact stamped_of_ends hends hsince

/-- **One step** of a run that meets the condition. -/
theorem Coupled.step (h : s.Coupled setting) {next : PolicyStep C V}
    (hharmless : s.Harmless setting next) : (s.step setting next).Coupled setting := by
  unfold PolicyStream.step
  by_cases hstopped : s.stopped = true
  · rw [if_pos hstopped]
    exact h
  rw [if_neg hstopped]
  cases next with
  | request policy => exact ⟨h.session, h.opened, h.queue, h.group, h.commits⟩
  | record rec attempt =>
    dsimp only
    split_ifs
    · have hactive : (s.activate setting attempt).Coupled setting := h.activate hharmless
      unfold admitRecord
      split_ifs
      · exact hactive
      · split
        · exact hactive.stop
        next mode hmode => exact hactive.feed (Or.inl (stampedBy_stamp hmode))
    · exact h
  | boundary rec =>
    dsimp only
    split_ifs with hqueue hopen
    · exact h
    · exact h.stop
    · exact h.feed (Or.inr ⟨rec, rfl, by simpa using hopen⟩)
  | notice unit =>
    dsimp only
    split_ifs with hkind
    · exact h
    · refine ⟨h.session, h.opened, fun a ha htxn => ?_, h.group, h.commits⟩
      rcases List.mem_append.1 ha with ha | ha
      · exact h.queue a ha htxn
      · rw [List.mem_singleton.1 ha] at htxn
        exact absurd htxn hkind
  | join fenced =>
    dsimp only
    cases hqueue : s.queue with
    | nil => exact h
    | cons a rest =>
      have hall := h.queue
      rw [hqueue] at hall
      refine ⟨h.session, h.opened, fun b hb => hall b (List.mem_cons_of_mem _ hb),
        fun b hb htxn => ?_, h.commits⟩
      rcases List.mem_append.1 hb with hb | hb
      · exact h.group b hb htxn
      · obtain rfl := List.mem_singleton.1 hb
        have ha := hall a List.mem_cons_self htxn
        exact ⟨ha.emitted, ha.completed, ha.stamped⟩
  | discard =>
    exact ⟨h.session, h.opened, fun a ha => h.queue a (List.mem_of_mem_tail ha), h.group,
      h.commits⟩
  | commit attempt => exact h.commitGroup false (fun hf => absurd hf Bool.false_ne_true) hharmless

theorem coupled_run (policy : DeleteModeResolver) (steps : List (PolicyStep C V))
    (h : EachAfter (fun before step => (run setting policy before).Harmless setting step) steps) :
    (run setting policy steps).Coupled setting := by
  induction steps using List.reverseRecOn with
  | nil =>
    refine ⟨rfl, fun t ht => ?_, List.forall_mem_nil _, List.forall_mem_nil _,
      List.forall_mem_nil _⟩
    cases ht
  | append_singleton steps step ih =>
    obtain ⟨hsteps, hstep⟩ := eachAfter_append_singleton.1 h
    have hrun : run setting policy (steps ++ [step]) =
        (run setting policy steps).step setting step := by
      rw [run, List.foldl_append]
      rfl
    rw [hrun]
    exact (ih hsteps).step hstep

/-- **Delete-policy changes respect transaction boundaries** in every run whose steps meet the
condition. -/
theorem respects_run (setting : PolicySetting C V) (policy : DeleteModeResolver)
    (steps : List (PolicyStep C V))
    (h : EachAfter (fun before step => (run setting policy before).Harmless setting step) steps) :
    ∀ c ∈ (run setting policy steps).commits, c.Respects setting :=
  (coupled_run policy steps h).commits

end PolicyStream

end Stream

namespace Accounts

/-- The accounts are deleted from a keyed table, two events are staged at a time, and what is
staged is read back as it was. -/
def policySetting : PolicySetting Column String where
  cfg := spilling
  normalize := fun name => name
  targetTable := fun event => event.qualifiedTable.getD ""
  readBack := fun event => { key := event.key, before := event.before, after := event.after }

/-- A policy without overrides. -/
def deletesAs (mode : DeleteMode) (digest : String) : DeleteModeResolver where
  globalMode := mode
  epoch_pos := Nat.one_pos
  digest := digest

/-- The users are deleted softly. -/
def softUsers : DeleteModeResolver where
  overrides := (∅ : Dict String DeleteMode).set "public.users" .soft
  epoch_pos := Nat.one_pos
  digest := "users"

/-- A delete of a transaction. -/
def removes (txnId : String) (order : ℤ) : PendingRecord Column String :=
  { changes txnId order with op := some .delete, key := some ∅ }

/-- A transaction of two deletes, which are staged; then a new policy, and the BEGIN at which it is
activated. -/
def policyChange (policy : DeleteModeResolver) : List (PolicyStep Column String) :=
  [.record (begins "7") {}, .record (removes "7" 1) {}, .record (removes "7" 2) {},
    .record (ends "7" 2) {}, .join false, .request policy, .record (begins "8") {}]

/-- What has to be looked at in the states of a run. -/
private theorem harmless_of_rows {s : PolicyStream Column String}
    {rec : PendingRecord Column String}
    (h : ∀ pending ∈ s.pending, ∀ a ∈ s.group,
      ∀ row ∈ a.rows policySetting s.session.state.spillCalls,
        pending.resolve policySetting.normalize row.2.qualifiedTable =
          a.admittedUnder.resolve policySetting.normalize row.2.qualifiedTable ∧
        a.admittedUnder.resolve policySetting.normalize row.2.qualifiedTable ≠ some .soft) :
    s.Harmless policySetting (.record rec {}) := by
  intro pending hpending _ a ha _ row hrow _ _ _
  obtain ⟨hresolve, hhard⟩ := h pending hpending a ha row hrow
  exact ⟨hresolve, fun hsoft => absurd hsoft hhard⟩

theorem respects_policyChange :
    ((PolicyStream.run policySetting (deletesAs .hard "hard")
      (policyChange softUsers)).commits.map fun c => c.writes.map DeleteWrite.mode) =
        [[.hard, .hard]] ∧
    ∀ c ∈ (PolicyStream.run policySetting (deletesAs .hard "hard")
      (policyChange softUsers)).commits, c.Respects policySetting := by
  refine ⟨by rfl, PolicyStream.respects_run policySetting (deletesAs .hard "hard")
    (policyChange softUsers) ?_⟩
  refine eachAfter_cons.2 ⟨harmless_of_rows (by decide), ?_⟩
  refine eachAfter_cons.2 ⟨harmless_of_rows (by decide), ?_⟩
  refine eachAfter_cons.2 ⟨harmless_of_rows (by decide), ?_⟩
  refine eachAfter_cons.2 ⟨harmless_of_rows (by decide), ?_⟩
  refine eachAfter_cons.2 ⟨trivial, eachAfter_cons.2 ⟨trivial, ?_⟩⟩
  exact eachAfter_cons.2 ⟨harmless_of_rows (by decide), eachAfter_nil⟩

/-- **The staged deletes of a soft policy are written hard**, in the commit at the boundary. -/
theorem not_respects_policyChange :
    ¬ ∀ c ∈ (PolicyStream.run policySetting (deletesAs .soft "soft")
      (policyChange (deletesAs .hard "hard"))).commits, c.Respects policySetting := by
  intro h
  have hwritten : ∀ c ∈ (PolicyStream.run policySetting (deletesAs .soft "soft")
      (policyChange (deletesAs .hard "hard"))).commits, ∀ w ∈ c.writes,
      w.unit.unit.kind = .txn → w.unit.admittedUnder.resolve policySetting.normalize
        w.event.qualifiedTable = some w.mode :=
    fun c hc w hw => ((h c hc).written w hw).2
  revert hwritten
  decide

end Accounts

end CdcFlight
