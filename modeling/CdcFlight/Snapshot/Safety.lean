import CdcFlight.Snapshot.Completion
import CdcFlight.Source.Records

/-!
# Completion safety and refused observations

Callbacks and committed rows arrive in any order, and calls may be refused. The evidence is kept
as a log of the calls that were accepted, beside the state of the model, which a refused call may
have changed: `TABLE_SCAN_COMPLETED` marks its table before it reads the row count, and stores the
count before it compares it with the committed rows.

A table that was marked by a refused scan is never completed: its count is missing, or below the
rows committed, and neither changes any more. So completion is always backed by the log. What a
refused scan breaks is the bound of the committed rows by the declared ones, and nothing else does.

## Main definitions

* `CdcFlight.SnapshotCall`, `CdcFlight.SnapshotHistory`: the calls, and a run of the model with the
  calls it accepted.
* `CdcFlight.CompletionSafe`: what a run has to guarantee in every state.
* `CdcFlight.SnapshotCompletion.Moves`: what one call can do to the state.

## Main results

* `CdcFlight.completionSafe_iff`: the runs along which the model is safe.
* `CdcFlight.leavesNoTrace_iff`: the calls whose refusal leaves the state unchanged.
-/

namespace CdcFlight

open Lib

variable {C V : Type}

/-- The calls on a `SnapshotCompletion`. -/
inductive SnapshotCall (C V : Type)
  | notify (n : SnapshotNotification)
  | commitReady (units : List (CompleteUnit C V))
  | willComplete (units : List (CompleteUnit C V))
  | committed (units : List (CompleteUnit C V))
  | enterStreaming

namespace SnapshotCall

/-- A query leaves the state as it is. -/
def ofQuery {α : Type} (s : SnapshotCompletion) : Except ObservationError α → Observed Unit
  | .ok _ => .ok () s
  | .error error => .error error s

/-- What a call leaves. -/
def run : SnapshotCall C V → SnapshotCompletion → Observed Unit
  | notify n, s => s.observeNotification n
  | commitReady units, s => ofQuery s (s.commitReady units)
  | willComplete units, s => ofQuery s (s.willCompleteAfterCommit units)
  | committed units, s => s.observeCommittedGroup units
  | enterStreaming, s => s.enterStreaming

/-- A notification of this kind. -/
def Notifies (observation : Observation) : SnapshotCall C V → Prop
  | notify n => Observation.parse n.observation = some observation
  | _ => False

/-- The rows a successful `TABLE_SCAN_COMPLETED` declares for a table. -/
def scanRows (table : String) : SnapshotCall C V → Option ℤ
  | notify n =>
    match Observation.parse n.observation, qualifiedName (n.scannedCollection.getD ""),
      n.totalRowsScanned with
    | some .tableScanCompleted, .ok scanned, some (.int rows) =>
      if n.status = some "SUCCEEDED" ∧ scanned = table then some rows else none
    | _, _, _ => none
  | _ => none

/-- The rows of a table in a unit. -/
def unitRows (table : String) (unit : CompleteUnit C V) : ℕ :=
  match SnapshotCompletion.unitTable unit with
  | .ok name => if name = table then unit.eventCount else 0
  | .error _ => 0

/-- The rows of a table that a committed group brings: those of its snapshot units that are not
incremental, not ignored and not fenced. -/
def groupRows (table : String) : SnapshotCall C V → ℕ
  | committed units => ((SnapshotCompletion.snapshotUnitsIn units).map (unitRows table)).sum
  | _ => 0

end SnapshotCall

/-- A run of the model: the state reached, and the calls that were accepted, in order. -/
structure SnapshotHistory (C V : Type) where
  state : SnapshotCompletion
  accepted : List (SnapshotCall C V) := []

namespace SnapshotHistory

/-- One more call. -/
def step (h : SnapshotHistory C V) (call : SnapshotCall C V) : SnapshotHistory C V :=
  match call.run h.state with
  | .ok _ s => ⟨s, h.accepted ++ [call]⟩
  | .error _ s => { h with state := s }

/-- The run of a list of calls, refused ones included, from a new model. -/
def ofCalls (required : Bool) (expectedTables : Finset String) (calls : List (SnapshotCall C V)) :
    SnapshotHistory C V :=
  calls.foldl step ⟨.ofTables required expectedTables, []⟩

/-- A notification of this kind was accepted. -/
def Saw (h : SnapshotHistory C V) (observation : Observation) : Prop :=
  ∃ call ∈ h.accepted, call.Notifies observation

/-- The counts declared for a table by the scans that were accepted, in order. -/
def scans (h : SnapshotHistory C V) (table : String) : List ℤ :=
  h.accepted.filterMap (SnapshotCall.scanRows table)

/-- The rows of a table in the groups that were accepted. -/
def committed (h : SnapshotHistory C V) (table : String) : ℕ :=
  (h.accepted.map (SnapshotCall.groupRows table)).sum

end SnapshotHistory

/-- **Completion safety** in one state of a run. -/
structure CompletionSafe (h : SnapshotHistory C V) : Prop where
  /-- A required snapshot is complete only on the evidence of the log. -/
  evidence : h.state.required = true →
    h.state.state = .callbacksComplete ∨ h.state.state = .streaming →
    h.Saw .started ∧ h.Saw .completed ∧
      ∀ table ∈ h.state.expectedTables, h.scans table = [(h.committed table : ℤ)]
  /-- The committed rows do not exceed a declared count. -/
  bounded : ∀ table declared, h.state.callbackRows.get? table = some declared →
    h.committed table ≤ declared
  /-- A group that `commit_ready` accepts is recorded, with the end that was predicted. -/
  predicted : ∀ units : List (CompleteUnit C V), h.state.commitReady units = .ok true →
    ∃ s', h.state.observeCommittedGroup units = .ok () s' ∧
      h.state.willCompleteAfterCommit units = .ok s'.phaseEnded

/-- A `TABLE_SCAN_COMPLETED` whose table is about to be marked. -/
structure ScansNew (s : SnapshotCompletion) (n : SnapshotNotification) (table : String) :
    Prop where
  scan : Observation.parse n.observation = some .tableScanCompleted
  state : s.state = .callbacksStarted
  status : n.status = some "SUCCEEDED"
  name : qualifiedName (n.scannedCollection.getD "") = .ok table
  expected : table ∈ s.expectedTables
  fresh : table ∉ s.callbackTables

/-- A first scan declares fewer rows of its table than were committed. The number is the one that
the notification carries, and the rows are those committed before the call. -/
def Undercounts (s : SnapshotCompletion) : SnapshotCall C V → Prop
  | .notify n => ∃ table, ScansNew s n table ∧ ∃ rows : ℕ,
      n.totalRowsScanned = some (.int rows) ∧ rows < s.committedOf table
  | _ => False

/-! ### What a call can do -/

namespace SnapshotCompletion

/-- A call that brings nothing to the log that is counted. -/
def Silent (call : SnapshotCall C V) : Prop :=
  ∀ table, call.scanRows table = none ∧ call.groupRows table = 0

/-- What a call can do to the state: the call, whether it is accepted, and the state after it. -/
inductive Moves (s : SnapshotCompletion) : SnapshotCall C V → Bool → SnapshotCompletion → Prop
  | still {call : SnapshotCall C V} {accepted : Bool} (h : accepted = true → Silent call) :
      Moves s call accepted s
  | start {n : SnapshotNotification} (hn : Observation.parse n.observation = some .started)
      (hs : s.state = .awaitingCallbacks) :
      Moves s (.notify n) true { s with state := .callbacksStarted }
  | scan {n : SnapshotNotification} {table : String} {rows : ℕ} (h : ScansNew s n table)
      (hrows : n.totalRowsScanned = some (.int rows)) (hle : s.committedOf table ≤ rows) :
      Moves s (.notify n) true ((s.addCallbackTable table).declareRows table rows)
  | mark {n : SnapshotNotification} {table : String} (h : ScansNew s n table)
      (hrows : ∀ rows : ℕ, n.totalRowsScanned ≠ some (.int rows)) :
      Moves s (.notify n) false (s.addCallbackTable table)
  | undercount {n : SnapshotNotification} {table : String} {rows : ℕ} (h : ScansNew s n table)
      (hrows : n.totalRowsScanned = some (.int rows)) (hlt : rows < s.committedOf table) :
      Moves s (.notify n) false ((s.addCallbackTable table).declareRows table rows)
  | complete {n : SnapshotNotification} (hn : Observation.parse n.observation = some .completed)
      (hs : s.state = .callbacksStarted) (htables : s.callbackTables = s.expectedTables) :
      Moves s (.notify n) true { s with state := if s.countsMatch s.committedRows
        then .callbacksComplete else .completionNotified }
  | commit {units : List (CompleteUnit C V)} {rows : List TableRows}
      (hrows : s.validateSnapshotUnits (snapshotUnitsIn units) = .ok rows) (hne : rows ≠ []) :
      Moves s (.committed units) true { rows.foldl record s with state :=
        (if s.state = .completionNotified ∧ s.countsMatch (projectedRows s.committedRows rows)
        then .callbacksComplete else s.state) }
  | stream (hs : s.state = .callbacksComplete ∨ s.state = .notRequired) :
      Moves s .enterStreaming true { s with state := .streaming }

/-- Whether a call was accepted. -/
def isAccepted : Observed Unit → Bool
  | .ok _ _ => true
  | .error _ _ => false

/-- The state a call leaves. -/
def after : Observed Unit → SnapshotCompletion
  | .ok _ s => s
  | .error _ s => s

/-! ### Committed groups -/

theorem foldl_record (rows : List TableRows) (s : SnapshotCompletion) :
    (rows.foldl record s).state = s.state ∧ (rows.foldl record s).required = s.required ∧
      (rows.foldl record s).expectedTables = s.expectedTables ∧
      (rows.foldl record s).callbackTables = s.callbackTables ∧
      (rows.foldl record s).callbackRows = s.callbackRows ∧
      (rows.foldl record s).committedRows = projectedRows s.committedRows rows := by
  induction rows generalizing s with
  | nil => exact ⟨rfl, rfl, rfl, rfl, rfl, rfl⟩
  | cons r rows ih => exact ih (s.record r)

theorem getD_projectedRows (rows : List TableRows) (d : Dict String ℕ) (table : String) :
    ((projectedRows d rows).get? table).getD 0 =
      (d.get? table).getD 0 + (rows.map fun r => if r.table = table then r.rows else 0).sum := by
  induction rows generalizing d with
  | nil => rfl
  | cons r rows ih =>
    have hcons : projectedRows d (r :: rows) =
        projectedRows (d.set r.table ((d.get? r.table).getD 0 + r.rows)) rows := rfl
    rw [hcons, ih, Dict.get?_set, List.map_cons, List.sum_cons]
    by_cases h : r.table = table
    · subst h
      rw [if_pos rfl, if_pos rfl, Option.getD_some]
      omega
    · rw [if_neg (Ne.symm h), if_neg h]
      omega

/-- What a validated group says: it has no snapshot units, or the phase takes rows, the rows are
those of its units, and no declared count is exceeded. -/
theorem validateSnapshotUnits_eq_ok {s : SnapshotCompletion} {units : List (CompleteUnit C V)}
    {rows : List TableRows} (h : s.validateSnapshotUnits units = .ok rows) :
    (units = [] ∧ rows = []) ∨
      (units ≠ [] ∧ (s.state = .callbacksStarted ∨ s.state = .completionNotified) ∧
        units.mapM s.identifyUnit = .ok rows ∧ s.beyondDeclared rows = none) := by
  rw [validateSnapshotUnits] at h
  split_ifs at h with hnil hstate hedge
  · exact Or.inl ⟨hnil, (Except.ok.inj h).symm⟩
  · obtain ⟨rows', hmap, h⟩ := except_bind_eq_ok.1 h
    cases hbeyond : s.beyondDeclared rows' with
    | some error =>
      rw [hbeyond] at h
      exact absurd h (by simp)
    | none =>
      rw [hbeyond] at h
      obtain rfl : rows' = rows := except_pure_eq_ok.1 h
      exact Or.inr ⟨hnil, by by_contra hn; exact hstate (by tauto), hmap, hbeyond⟩

/-- The rows the checks name are those of the units. -/
theorem sum_of_identified {s : SnapshotCompletion} (table : String)
    {units : List (CompleteUnit C V)} {rows : List TableRows}
    (h : units.mapM s.identifyUnit = .ok rows) :
    (rows.map fun r => if r.table = table then r.rows else 0).sum =
      (units.map (SnapshotCall.unitRows table)).sum := by
  induction units generalizing rows with
  | nil =>
    obtain rfl : [] = rows := except_pure_eq_ok.1 h
    rfl
  | cons unit units ih =>
    rw [List.mapM_cons] at h
    obtain ⟨r, hr, h⟩ := except_bind_eq_ok.1 h
    obtain ⟨rows', hrows, h⟩ := except_bind_eq_ok.1 h
    obtain rfl : r :: rows' = rows := except_pure_eq_ok.1 h
    have hunit : (if r.table = table then r.rows else 0) = SnapshotCall.unitRows table unit := by
      rw [identifyUnit] at hr
      split_ifs at hr with hnamed
      obtain ⟨name, hname, hr⟩ := except_bind_eq_ok.1 hr
      split_ifs at hr with hexpected
      obtain rfl := except_pure_eq_ok.1 hr
      simp only [SnapshotCall.unitRows, hname]
    rw [List.map_cons, List.map_cons, List.sum_cons, List.sum_cons, hunit, ih hrows]

theorem length_of_identified {s : SnapshotCompletion} {units : List (CompleteUnit C V)}
    {rows : List TableRows} (h : units.mapM s.identifyUnit = .ok rows) :
    rows.length = units.length := by
  induction units generalizing rows with
  | nil =>
    obtain rfl : [] = rows := except_pure_eq_ok.1 h
    rfl
  | cons unit units ih =>
    rw [List.mapM_cons] at h
    obtain ⟨r, _, h⟩ := except_bind_eq_ok.1 h
    obtain ⟨rows', hrows, h⟩ := except_bind_eq_ok.1 h
    obtain rfl : r :: rows' = rows := except_pure_eq_ok.1 h
    rw [List.length_cons, List.length_cons, ih hrows]

/-- A validated group has rows when it has snapshot units, and they are the rows of its units. -/
theorem rows_of_validated {s : SnapshotCompletion} {units : List (CompleteUnit C V)}
    {rows : List TableRows} (h : s.validateSnapshotUnits units = .ok rows) :
    (rows = [] ↔ units = []) ∧ ∀ table,
      (rows.map fun r => if r.table = table then r.rows else 0).sum =
        (units.map (SnapshotCall.unitRows table)).sum := by
  rcases validateSnapshotUnits_eq_ok h with ⟨rfl, rfl⟩ | ⟨hne, _, hmap, _⟩
  · exact ⟨by simp, fun table => rfl⟩
  · have hlength := length_of_identified hmap
    refine ⟨⟨fun hrows => ?_, fun hunits => absurd hunits hne⟩,
      fun table => sum_of_identified table hmap⟩
    rw [hrows] at hlength
    exact List.eq_nil_of_length_eq_zero hlength.symm

/-- A validated group keeps every declared count that its tables had. -/
theorem le_of_beyondDeclared {s : SnapshotCompletion} {rows : List TableRows}
    (h : s.beyondDeclared rows = none) {table : String} {declared : ℕ}
    (hdeclared : s.callbackRows.get? table = some declared)
    (hle : s.committedOf table ≤ declared) :
    ((projectedRows s.committedRows rows).get? table).getD 0 ≤ declared := by
  by_cases hmem : ∃ r ∈ rows, r.table = table
  · obtain ⟨r, hr, rfl⟩ := hmem
    have hnone := List.findSome?_eq_none_iff.1 h r hr
    simp only [hdeclared] at hnone
    split_ifs at hnone with hlt
    omega
  · have hzero : (rows.map fun r => if r.table = table then r.rows else 0).sum = 0 := by
      rw [List.sum_eq_zero_iff]
      rintro x hx
      obtain ⟨r, hr, rfl⟩ := List.mem_map.1 hx
      rw [if_neg fun he => hmem ⟨r, hr, he⟩]
    rw [getD_projectedRows, hzero]
    exact hle

/-! ### The calls move as said -/

theorem transition_of_edge {s : SnapshotCompletion} {target : SnapshotState}
    (h : (s.state, target) ∈ SnapshotState.edges) :
    s.transition target = .ok () { s with state := target } := by
  rw [transition, if_pos h]

theorem transition_self {s : SnapshotCompletion} (h : (s.state, s.state) ∈ SnapshotState.edges) :
    s.transition s.state = .ok () s := by
  rw [transition_of_edge h]

/-- A notification that is not a scan adds no row to the log. -/
theorem silent_notify {n : SnapshotNotification} {observation : Observation}
    (h : Observation.parse n.observation = some observation)
    (hne : observation ≠ .tableScanCompleted) : Silent (.notify n : SnapshotCall C V) := by
  refine fun table => ⟨?_, rfl⟩
  rw [SnapshotCall.scanRows, h]
  split
  · rename_i heq _ _
    exact absurd (Option.some.inj heq) hne
  · rfl

theorem moves_progress {n : SnapshotNotification} {observation : Observation}
    (h : Observation.parse n.observation = some observation)
    (hne : observation ≠ .tableScanCompleted) (s : SnapshotCompletion) :
    Moves s (.notify n : SnapshotCall C V) (isAccepted (s.observeProgress observation n))
      (after (s.observeProgress observation n)) := by
  rw [observeProgress]
  split_ifs with hstate
  · exact .still (by simp [isAccepted])
  · rw [not_not] at hstate
    cases s.validateProgressTable observation n with
    | error error => exact .still (by simp [isAccepted])
    | ok _ =>
      rw [← hstate, transition_self (by rw [hstate]; decide)]
      exact .still fun _ => silent_notify h hne

/-- The checks made before any change say that the table is new. -/
theorem scansNew_of_scannedTable {s : SnapshotCompletion} {n : SnapshotNotification}
    {table : String} (hn : Observation.parse n.observation = some .tableScanCompleted)
    (h : s.scannedTable n = .ok table) : ScansNew s n table := by
  rw [scannedTable] at h
  split_ifs at h with hstate hstatus
  obtain ⟨name, hname, h⟩ := except_bind_eq_ok.1 h
  split_ifs at h with hexpected hfresh
  obtain rfl := except_pure_eq_ok.1 h
  exact ⟨hn, not_not.1 hstate, not_not.1 hstatus, hname, hexpected, hfresh⟩

theorem scannedTable_of_scansNew {s : SnapshotCompletion} {n : SnapshotNotification}
    {table : String} (h : ScansNew s n table) : s.scannedTable n = .ok table := by
  rw [scannedTable, if_neg (not_not.2 h.state), if_neg (not_not.2 h.status), h.name]
  change (if table ∉ s.expectedTables then _ else _) = _
  rw [if_neg (not_not.2 h.expected), if_neg h.fresh]
  rfl

/-- A scan of a new table reaches the count. -/
theorem observeNotification_of_scansNew {s : SnapshotCompletion} {n : SnapshotNotification}
    {table : String} (h : ScansNew s n table) :
    s.observeNotification n = s.declareScan table n := by
  have hstate : s.state ≠ .notRequired := by
    rw [h.state]
    decide
  rw [observeNotification, h.scan]
  dsimp only
  rw [if_neg hstate, observeScan, scannedTable_of_scansNew h]

theorem moves_scan {n : SnapshotNotification}
    (hn : Observation.parse n.observation = some .tableScanCompleted) (s : SnapshotCompletion) :
    Moves s (.notify n : SnapshotCall C V) (isAccepted (s.observeScan n))
      (after (s.observeScan n)) := by
  rw [observeScan]
  cases hscan : s.scannedTable n with
  | error error => exact .still (by simp [isAccepted])
  | ok table =>
    have hnew := scansNew_of_scannedTable hn hscan
    simp only [declareScan]
    cases hrows : n.totalRowsScanned with
    | none => exact .mark hnew (by simp [hrows])
    | some total =>
      cases total with
      | unparsable => exact .mark hnew (by simp [hrows])
      | int rows =>
        dsimp only
        split_ifs with hneg hlt
        · refine .mark hnew fun r hr => ?_
          rw [hrows] at hr
          have : rows = r := PyInt.int.inj (Option.some.inj hr)
          omega
        · have hcast : n.totalRowsScanned = some (.int (rows.toNat : ℤ)) := by
            rw [hrows, Int.toNat_of_nonneg (by omega)]
          exact .undercount hnew hcast hlt
        · have hcast : n.totalRowsScanned = some (.int (rows.toNat : ℤ)) := by
            rw [hrows, Int.toNat_of_nonneg (by omega)]
          have hstate : ((s.addCallbackTable table).declareRows table rows.toNat).state =
            .callbacksStarted := hnew.state
          rw [← hstate, transition_self (by rw [hstate]; decide)]
          exact .scan hnew hcast (by omega)

theorem moves_completed {n : SnapshotNotification}
    (hn : Observation.parse n.observation = some .completed) (s : SnapshotCompletion) :
    Moves s (.notify n : SnapshotCall C V) (isAccepted s.observeCompleted)
      (after s.observeCompleted) := by
  rw [observeCompleted]
  by_cases hstate : s.state = .callbacksStarted
  · rw [if_neg (not_not.2 hstate)]
    by_cases htables : s.callbackTables = s.expectedTables
    · rw [if_neg (not_not.2 htables)]
      have hedge : (s.state, if s.countsMatch s.committedRows then SnapshotState.callbacksComplete
          else .completionNotified) ∈ SnapshotState.edges := by
        rw [hstate]
        split <;> decide
      rw [transition_of_edge hedge]
      exact .complete hn hstate htables
    · rw [if_pos htables]
      exact .still (by simp [isAccepted])
  · rw [if_pos hstate]
    exact .still (by simp [isAccepted])

theorem moves_notify (n : SnapshotNotification) (s : SnapshotCompletion) :
    Moves s (.notify n : SnapshotCall C V) (isAccepted (s.observeNotification n))
      (after (s.observeNotification n)) := by
  rw [observeNotification]
  cases hn : Observation.parse n.observation with
  | none => exact .still (by simp [isAccepted])
  | some observation =>
    dsimp only
    by_cases hstate : s.state = .notRequired
    · rw [if_pos hstate]
      by_cases hskipped : observation = .skipped
      · rw [if_neg (not_not.2 hskipped), ← hstate, transition_self (by rw [hstate]; decide)]
        exact .still fun _ => silent_notify hn (by rw [hskipped]; decide)
      · rw [if_pos hskipped]
        exact .still (by simp [isAccepted])
    rw [if_neg hstate]
    cases observation with
    | started =>
      dsimp only
      by_cases hawaiting : s.state = .awaitingCallbacks
      · rw [if_neg (not_not.2 hawaiting), transition_of_edge (by rw [hawaiting]; decide)]
        exact .start hn hawaiting
      · rw [if_pos hawaiting]
        exact .still (by simp [isAccepted])
    | inProgress => exact moves_progress hn (by decide) s
    | tableChunkInProgress => exact moves_progress hn (by decide) s
    | tableChunkCompleted => exact moves_progress hn (by decide) s
    | tableScanCompleted => exact moves_scan hn s
    | completed => exact moves_completed hn s
    | skipped => exact .still (by simp [isAccepted])
    | aborted => exact .still (by simp [isAccepted])

theorem phase_of_rows {s : SnapshotCompletion} {units : List (CompleteUnit C V)}
    {rows : List TableRows} (hrows : s.validateSnapshotUnits units = .ok rows) (hne : rows ≠ []) :
    s.state = .callbacksStarted ∨ s.state = .completionNotified := by
  rcases validateSnapshotUnits_eq_ok hrows with ⟨_, hnil⟩ | ⟨_, hphase, _⟩
  · exact absurd hnil hne
  · exact hphase

/-- A validated group with rows is recorded. -/
theorem observeCommittedGroup_of_rows {s : SnapshotCompletion} {units : List (CompleteUnit C V)}
    {rows : List TableRows} (hrows : s.validateSnapshotUnits (snapshotUnitsIn units) = .ok rows)
    (hne : rows ≠ []) : s.observeCommittedGroup units =
      .ok () { rows.foldl record s with state :=
        (if s.state = .completionNotified ∧ s.countsMatch (projectedRows s.committedRows rows)
        then .callbacksComplete else s.state) } := by
  have hphase := phase_of_rows hrows hne
  obtain ⟨hstate, _, hexpected, _, hcallback, hcommitted⟩ := foldl_record rows s
  have hcounts : (rows.foldl record s).countsMatch (rows.foldl record s).committedRows =
      s.countsMatch (projectedRows s.committedRows rows) := by
    rw [countsMatch, countsMatch, hexpected, hcallback, hcommitted]
  simp only [observeCommittedGroup, hrows, if_neg hne]
  rw [settle, hstate, hcounts]
  split_ifs with hmatch hopen
  · exact transition_of_edge (by rw [hstate, hmatch.1]; decide)
  · exact transition_of_edge (by rcases hphase with h | h <;> rw [hstate, h] <;> decide)
  · exact absurd (Or.inr hphase) hopen

theorem moves_commit (units : List (CompleteUnit C V)) (s : SnapshotCompletion) :
    Moves s (.committed units) (isAccepted (s.observeCommittedGroup units))
      (after (s.observeCommittedGroup units)) := by
  cases hrows : s.validateSnapshotUnits (snapshotUnitsIn units) with
  | error error =>
    rw [observeCommittedGroup, hrows]
    exact .still (by simp [isAccepted])
  | ok rows =>
    by_cases hempty : rows = []
    · have hunits := (rows_of_validated hrows).1.1 hempty
      simp only [observeCommittedGroup, hrows, if_pos hempty]
      refine .still fun _ table => ⟨rfl, ?_⟩
      rw [SnapshotCall.groupRows, hunits]
      rfl
    · rw [observeCommittedGroup_of_rows hrows hempty]
      exact .commit hrows hempty

/-- Every call moves as said. -/
theorem moves (call : SnapshotCall C V) (s : SnapshotCompletion) :
    Moves s call (isAccepted (call.run s)) (after (call.run s)) := by
  have hquery {α : Type} (call : SnapshotCall C V) (hsilent : Silent call)
      (r : Except ObservationError α) : Moves s call (isAccepted (SnapshotCall.ofQuery s r))
        (after (SnapshotCall.ofQuery s r)) := by
    cases r with
    | ok _ => exact .still fun _ => hsilent
    | error _ => exact .still fun _ => hsilent
  cases call with
  | notify n => exact moves_notify n s
  | commitReady units => exact hquery _ (fun table => ⟨rfl, rfl⟩) _
  | willComplete units => exact hquery _ (fun table => ⟨rfl, rfl⟩) _
  | committed units => exact moves_commit units s
  | enterStreaming =>
    rw [SnapshotCall.run, enterStreaming]
    split_ifs with hstreaming hedge
    · exact .still fun _ table => ⟨rfl, rfl⟩
    · exact .stream (by simpa [SnapshotState.edges] using hedge)
    · exact .still (by simp [isAccepted])

end SnapshotCompletion

/-! ### The invariant of a run -/

namespace SnapshotHistory

open SnapshotCompletion

theorem step_eq (h : SnapshotHistory C V) (call : SnapshotCall C V) :
    h.step call = ⟨after (call.run h.state),
      if isAccepted (call.run h.state) then h.accepted ++ [call] else h.accepted⟩ := by
  rw [step]
  cases call.run h.state with
  | ok _ s => rfl
  | error _ s => rfl

/-- **The invariant.** The state and the log agree, up to the tables marked by refused scans. -/
structure Consistent (h : SnapshotHistory C V) : Prop where
  committed : ∀ table, h.state.committedOf table = h.committed table
  kind : h.state.required = true → h.state.state ≠ .notRequired
  started : h.state.required = true → h.state.state ≠ .awaitingCallbacks → h.Saw .started
  completed : h.state.required = true → h.state.state ≠ .awaitingCallbacks →
    h.state.state ≠ .callbacksStarted →
      h.Saw .completed ∧ h.state.callbackTables = h.state.expectedTables
  /-- An unmarked table has no count. -/
  fresh : ∀ table ∉ h.state.callbackTables,
    h.scans table = [] ∧ h.state.callbackRows.get? table = none
  /-- A marked table has the count of its one scan, or was marked by a refused scan: it has no
  count, or one that the committed rows exceed. -/
  marked : ∀ table ∈ h.state.callbackTables,
    (∃ rows : ℕ, h.scans table = [(rows : ℤ)] ∧ h.state.callbackRows.get? table = some rows) ∨
      h.scans table = [] ∧ ∀ rows, h.state.callbackRows.get? table = some rows →
        rows < h.committed table
  /-- The model waits after COMPLETED only while the counts differ. -/
  unmatched : h.state.state = .completionNotified →
    h.state.countsMatch h.state.committedRows = false
  matched : h.state.required = true →
    h.state.state = .callbacksComplete ∨ h.state.state = .streaming →
      h.state.countsMatch h.state.committedRows = true

theorem consistent_nil (required : Bool) (expectedTables : Finset String) :
    Consistent (⟨.ofTables required expectedTables, []⟩ : SnapshotHistory C V) := by
  have hstate : (SnapshotCompletion.ofTables required expectedTables).state =
      if required then .awaitingCallbacks else .notRequired := rfl
  refine ⟨fun table => rfl, ?_, ?_, ?_, fun table _ => ⟨rfl, rfl⟩, ?_, ?_, ?_⟩
  · rintro (rfl : required = true)
    simp [hstate]
  · rintro (rfl : required = true) h
    exact absurd hstate h
  · rintro (rfl : required = true) h
    exact absurd hstate h
  · rintro table htable
    exact absurd htable (Finset.notMem_empty table)
  · rintro h
    rw [hstate] at h
    split_ifs at h
  · rintro _ h
    rw [hstate] at h
    split_ifs at h <;> simp at h

/-! ### The log after a call -/

section Log

variable (h : SnapshotHistory C V) (s : SnapshotCompletion) (call : SnapshotCall C V)
  (table : String)

theorem committed_append : (⟨s, h.accepted ++ [call]⟩ : SnapshotHistory C V).committed table =
    h.committed table + call.groupRows table := by
  simp [committed]

theorem scans_append : (⟨s, h.accepted ++ [call]⟩ : SnapshotHistory C V).scans table =
    h.scans table ++ (call.scanRows table).toList := by
  rw [scans, List.filterMap_append, scans]
  cases hc : call.scanRows table with
  | none => simp [hc]
  | some rows => simp [hc]

theorem log_append_of_silent (hsilent : Silent call) :
    (⟨s, h.accepted ++ [call]⟩ : SnapshotHistory C V).committed table = h.committed table ∧
      (⟨s, h.accepted ++ [call]⟩ : SnapshotHistory C V).scans table = h.scans table := by
  rw [committed_append, scans_append, (hsilent table).1, (hsilent table).2]
  exact ⟨rfl, List.append_nil _⟩

end Log

/-- The scan of a new table declares its count for that table only. -/
theorem scanRows_of_scansNew {s : SnapshotCompletion} {n : SnapshotNotification} {table : String}
    {rows : ℤ} (h : ScansNew s n table) (hrows : n.totalRowsScanned = some (.int rows))
    (name : String) : (SnapshotCall.notify n : SnapshotCall C V).scanRows name =
      if table = name then some rows else none := by
  simp only [SnapshotCall.scanRows, h.scan, h.name, hrows, h.status, true_and]

theorem Saw.append {h : SnapshotHistory C V} {observation : Observation} (hs : h.Saw observation)
    (s : SnapshotCompletion) (calls : List (SnapshotCall C V)) :
    (⟨s, h.accepted ++ calls⟩ : SnapshotHistory C V).Saw observation := by
  obtain ⟨call, hcall, hn⟩ := hs
  exact ⟨call, List.mem_append_left _ hcall, hn⟩

theorem saw_append_self (h : SnapshotHistory C V) (s : SnapshotCompletion)
    {call : SnapshotCall C V} {observation : Observation} (hn : call.Notifies observation) :
    (⟨s, h.accepted ++ [call]⟩ : SnapshotHistory C V).Saw observation :=
  ⟨call, List.mem_append_right _ (List.mem_singleton_self call), hn⟩

/-! ### The invariant is kept -/

namespace Consistent

variable {h h' : SnapshotHistory C V}

/-- The part of the invariant about the tables depends on the marks, the counts and the log
only. -/
theorem tables (hc : h.Consistent) (h' : SnapshotHistory C V)
    (htables : h'.state.callbackTables = h.state.callbackTables)
    (hrows : h'.state.callbackRows = h.state.callbackRows)
    (hcommitted : h'.state.committedRows = h.state.committedRows)
    (hlog : ∀ table, h'.committed table = h.committed table ∧ h'.scans table = h.scans table) :
    (∀ table, h'.state.committedOf table = h'.committed table) ∧
    (∀ table ∉ h'.state.callbackTables,
      h'.scans table = [] ∧ h'.state.callbackRows.get? table = none) ∧
    ∀ table ∈ h'.state.callbackTables,
      (∃ rows : ℕ, h'.scans table = [(rows : ℤ)] ∧
        h'.state.callbackRows.get? table = some rows) ∨
      h'.scans table = [] ∧ ∀ rows, h'.state.callbackRows.get? table = some rows →
        rows < h'.committed table := by
  refine ⟨fun table => ?_, fun table ht => ?_, fun table ht => ?_⟩
  · rw [committedOf, hcommitted, (hlog table).1]
    exact hc.committed table
  · rw [htables] at ht
    rw [(hlog table).2, hrows]
    exact hc.fresh table ht
  · rw [htables] at ht
    rw [(hlog table).1, (hlog table).2, hrows]
    exact hc.marked table ht

/-- A call that changes no state and adds nothing that is counted. -/
theorem still (hc : h.Consistent) (hstate : h'.state = h.state)
    (hlog : ∀ table, h'.committed table = h.committed table ∧ h'.scans table = h.scans table)
    (hsaw : ∀ observation, h.Saw observation → h'.Saw observation) : h'.Consistent := by
  obtain ⟨hcommitted, hfresh, hmarked⟩ := hc.tables h' (by rw [hstate]) (by rw [hstate])
    (by rw [hstate]) hlog
  refine ⟨hcommitted, ?_, ?_, ?_, hfresh, hmarked, ?_, ?_⟩ <;> rw [hstate]
  · exact hc.kind
  · exact fun hr hs => hsaw _ (hc.started hr hs)
  · exact fun hr hs hs' => ⟨hsaw _ (hc.completed hr hs hs').1, (hc.completed hr hs hs').2⟩
  · exact hc.unmatched
  · exact hc.matched

/-- A scan marks its table, and declares a count or not. -/
theorem marks {table : String} (hc : h.Consistent) (s' : SnapshotCompletion)
    (hfresh : table ∉ h.state.callbackTables) (hphase : h.state.state = .callbacksStarted)
    (hs' : s'.state = h.state.state ∧ s'.required = h.state.required ∧
      s'.expectedTables = h.state.expectedTables ∧ s'.committedRows = h.state.committedRows ∧
      s'.callbackTables = insert table h.state.callbackTables)
    {accepted : List (SnapshotCall C V)}
    (hsaw : ∀ observation, h.Saw observation →
      (⟨s', accepted⟩ : SnapshotHistory C V).Saw observation)
    (hcommitted : ∀ name,
      (⟨s', accepted⟩ : SnapshotHistory C V).committed name = h.committed name)
    (hothers : ∀ name ≠ table,
      (⟨s', accepted⟩ : SnapshotHistory C V).scans name = h.scans name ∧
        s'.callbackRows.get? name = h.state.callbackRows.get? name)
    (hnew : (∃ rows : ℕ, (⟨s', accepted⟩ : SnapshotHistory C V).scans table = [(rows : ℤ)] ∧
        s'.callbackRows.get? table = some rows) ∨
      (⟨s', accepted⟩ : SnapshotHistory C V).scans table = [] ∧
        ∀ rows, s'.callbackRows.get? table = some rows → rows < h.committed table) :
    (⟨s', accepted⟩ : SnapshotHistory C V).Consistent := by
  obtain ⟨hstate, hrequired, -, hrows, htables⟩ := hs'
  have hstarted : s'.state = .callbacksStarted := hstate.trans hphase
  refine ⟨fun name => ?_, ?_, ?_, ?_, fun name hname => ?_, fun name hname => ?_, ?_, ?_⟩
  · rw [hcommitted, committedOf]
    change (s'.committedRows.get? name).getD 0 = _
    rw [hrows]
    exact hc.committed name
  · rintro _ (hn : s'.state = _)
    rw [hstarted] at hn
    exact absurd hn (by decide)
  · rintro hr _
    exact hsaw _ (hc.started (hrequired ▸ hr) (by rw [hphase]; decide))
  · rintro _ _ hn
    exact absurd hstarted hn
  · have hname : name ∉ insert table h.state.callbackTables := htables ▸ hname
    rw [Finset.mem_insert, not_or] at hname
    rw [(hothers name hname.1).1, (hothers name hname.1).2]
    exact hc.fresh name hname.2
  · by_cases he : name = table
    · subst he
      rw [hcommitted]
      exact hnew
    · have hname : name ∈ insert table h.state.callbackTables := htables ▸ hname
      rw [hcommitted, (hothers name he).1, (hothers name he).2]
      exact hc.marked name (Finset.mem_of_mem_insert_of_ne hname he)
  · rintro (hn : s'.state = _)
    rw [hstarted] at hn
    exact absurd hn (by decide)
  · rintro _ (hn : s'.state = _ ∨ s'.state = _)
    rw [hstarted] at hn
    exact absurd hn (by decide)

theorem commits {units : List (CompleteUnit C V)} {rows : List TableRows} (hc : h.Consistent)
    (hrows : h.state.validateSnapshotUnits (snapshotUnitsIn units) = .ok rows) (hne : rows ≠ []) :
    (⟨{ rows.foldl record h.state with state :=
        (if h.state.state = .completionNotified ∧
            h.state.countsMatch (projectedRows h.state.committedRows rows)
          then .callbacksComplete else h.state.state) },
      h.accepted ++ [.committed units]⟩ : SnapshotHistory C V).Consistent := by
  obtain ⟨_, hrequired, hexpected, htables, hcallback, hcommitted⟩ := foldl_record rows h.state
  have hphase := phase_of_rows hrows hne
  have hsum (table : String) : ((projectedRows h.state.committedRows rows).get? table).getD 0 =
      h.committed table + (SnapshotCall.committed units).groupRows table := by
    rw [getD_projectedRows, (rows_of_validated hrows).2, SnapshotCall.groupRows, ← hc.committed]
    rfl
  have hscans (s : SnapshotCompletion) (table : String) :
      (⟨s, h.accepted ++ [.committed units]⟩ : SnapshotHistory C V).scans table =
        h.scans table := by
    rw [scans_append]
    exact List.append_nil _
  have hnotAwaiting : h.state.state ≠ .awaitingCallbacks := by
    rcases hphase with hp | hp <;> rw [hp] <;> decide
  -- The new phase is the old one or the complete one, and the latter only on equal counts.
  generalize hstate : (if h.state.state = .completionNotified ∧
    h.state.countsMatch (projectedRows h.state.committedRows rows) then
      SnapshotState.callbacksComplete else h.state.state) = state
  have hnew : (state = .callbacksComplete ∧ h.state.state = .completionNotified ∧
        h.state.countsMatch (projectedRows h.state.committedRows rows) = true) ∨
      (state = h.state.state ∧ (h.state.state = .completionNotified →
        h.state.countsMatch (projectedRows h.state.committedRows rows) = false)) := by
    rw [← hstate]
    split_ifs with hmatch
    · exact Or.inl ⟨rfl, hmatch⟩
    · exact Or.inr ⟨rfl, fun hn => by simpa [hn] using hmatch⟩
  have hcounts (s : SnapshotState) : countsMatch { rows.foldl record h.state with state := s }
      (rows.foldl record h.state).committedRows =
        h.state.countsMatch (projectedRows h.state.committedRows rows) := by
    rw [countsMatch, countsMatch, hcommitted]
    change decide (∀ table ∈ (rows.foldl record h.state).expectedTables,
      (rows.foldl record h.state).callbackRows.get? table = _) = _
    rw [hexpected, hcallback]
  refine ⟨fun table => ?_, fun hr hn => ?_, fun hr _ => ?_, fun hr _ hn => ?_,
    fun table ht => ?_, fun table ht => ?_, fun hn => ?_, fun hr hn => ?_⟩
  · rw [committed_append, ← hsum table, ← hcommitted]
    rfl
  · rcases hnew with ⟨hn', _⟩ | ⟨hn', _⟩
    · exact absurd (hn'.symm.trans hn) (by decide)
    · exact hc.kind (hrequired ▸ hr) (hn'.symm.trans hn)
  · exact (hc.started (hrequired ▸ hr) hnotAwaiting).append _ _
  · have hnotified : h.state.state = .completionNotified := by
      rcases hnew with ⟨_, hold, _⟩ | ⟨hold, _⟩
      · exact hold
      · rcases hphase with hp | hp
        · exact absurd (hold.trans hp) hn
        · exact hp
    obtain ⟨hsaw, hexact⟩ := hc.completed (hrequired ▸ hr) hnotAwaiting (by rw [hnotified]; decide)
    exact ⟨hsaw.append _ _, htables.trans (hexact.trans hexpected.symm)⟩
  · change table ∉ (rows.foldl record h.state).callbackTables at ht
    change _ ∧ (rows.foldl record h.state).callbackRows.get? table = none
    rw [hscans, hcallback]
    exact hc.fresh table (htables ▸ ht)
  · change table ∈ (rows.foldl record h.state).callbackTables at ht
    change (∃ rows' : ℕ, _ ∧ (rows.foldl record h.state).callbackRows.get? table = some rows') ∨
      _ ∧ ∀ rows', (rows.foldl record h.state).callbackRows.get? table = some rows' → _
    rw [hscans, hcallback, committed_append]
    rcases hc.marked table (htables ▸ ht) with hone | ⟨hnone, hlt⟩
    · exact Or.inl hone
    · exact Or.inr ⟨hnone, fun rows' hr => lt_of_lt_of_le (hlt rows' hr) (Nat.le_add_right _ _)⟩
  · change state = .completionNotified at hn
    change countsMatch { rows.foldl record h.state with state := state } _ = false
    rw [hcounts]
    rcases hnew with ⟨hn', _⟩ | ⟨hn', hdiffer⟩
    · exact absurd (hn'.symm.trans hn) (by decide)
    · exact hdiffer (hn'.symm.trans hn)
  · change state = .callbacksComplete ∨ state = .streaming at hn
    change countsMatch { rows.foldl record h.state with state := state } _ = true
    rw [hcounts]
    rcases hnew with ⟨_, _, hmatch⟩ | ⟨hn', _⟩
    · exact hmatch
    · rw [hn'] at hn
      rcases hphase with hp | hp <;> rw [hp] at hn <;> exact absurd hn (by decide)

/-- The phase moves on, and the tables keep their counts. -/
theorem enters {state : SnapshotState} {call : SnapshotCall C V} (hc : h.Consistent)
    (hsilent : Silent call) (hkind : h.state.required = true → state ≠ .notRequired)
    (hstarted : h.state.required = true → state ≠ .awaitingCallbacks →
      h.Saw .started ∨ call.Notifies .started)
    (hcompleted : h.state.required = true → state ≠ .awaitingCallbacks →
      state ≠ .callbacksStarted → (h.Saw .completed ∨ call.Notifies .completed) ∧
        h.state.callbackTables = h.state.expectedTables)
    (hunmatched : state = .completionNotified →
      h.state.countsMatch h.state.committedRows = false)
    (hmatched : h.state.required = true → state = .callbacksComplete ∨ state = .streaming →
      h.state.countsMatch h.state.committedRows = true) :
    (⟨{ h.state with state := state }, h.accepted ++ [call]⟩ :
      SnapshotHistory C V).Consistent := by
  have hsaw (observation : Observation) (hs : h.Saw observation ∨ call.Notifies observation) :
      (⟨{ h.state with state := state }, h.accepted ++ [call]⟩ :
        SnapshotHistory C V).Saw observation := by
    rcases hs with hs | hs
    · exact hs.append _ _
    · exact saw_append_self h _ hs
  obtain ⟨hcommitted, hfresh, hmarked⟩ := hc.tables
    ⟨{ h.state with state := state }, h.accepted ++ [call]⟩ rfl rfl rfl
    fun table => log_append_of_silent h _ call table hsilent
  exact ⟨hcommitted, hkind, fun hr hs => hsaw _ (hstarted hr hs),
    fun hr hs hs' => ⟨hsaw _ (hcompleted hr hs hs').1, (hcompleted hr hs hs').2⟩, hfresh, hmarked,
    hunmatched, hmatched⟩

theorem step (hc : h.Consistent) (call : SnapshotCall C V) : (h.step call).Consistent := by
  rw [step_eq]
  have hmoves := SnapshotCompletion.moves call h.state
  generalize isAccepted (call.run h.state) = accepted at hmoves ⊢
  generalize after (call.run h.state) = s' at hmoves ⊢
  cases hmoves with
  | still hsilent =>
    cases accepted with
    | false => exact hc.still rfl (fun table => ⟨rfl, rfl⟩) fun _ hs => hs
    | true =>
      exact hc.still rfl (fun table => log_append_of_silent h _ call table (hsilent rfl))
        fun _ hs => hs.append _ _
  | start hn hs =>
    exact hc.enters (silent_notify hn (by decide)) (fun _ => by decide) (fun _ _ => Or.inr hn)
      (fun _ _ hne => absurd rfl hne) (fun he => absurd he (by decide))
      fun _ he => absurd he (by decide)
  | @scan n table rows hnew hrows hle =>
    have hscan := scanRows_of_scansNew (C := C) (V := V) hnew hrows
    refine hc.marks ((h.state.addCallbackTable table).declareRows table rows)
      hnew.fresh hnew.state ⟨rfl, rfl, rfl, rfl, rfl⟩
      (fun _ hs => hs.append _ _) (fun name => ?_) (fun name hne => ⟨?_, ?_⟩)
      (Or.inl ⟨rows, ?_, ?_⟩)
    · exact committed_append h _ _ name
    · rw [if_pos rfl, scans_append, hscan, if_neg hne.symm]
      exact List.append_nil _
    · exact Dict.get?_set_of_ne _ _ hne
    · rw [if_pos rfl, scans_append, hscan, if_pos rfl, (hc.fresh table hnew.fresh).1]
      rfl
    · exact Dict.get?_set_self _ _ _
  | @mark n table hnew hrows =>
    refine hc.marks (h.state.addCallbackTable table) hnew.fresh hnew.state ⟨rfl, rfl, rfl, rfl, rfl⟩
      (fun _ hs => hs) (fun name => rfl) (fun name _ => ⟨rfl, rfl⟩)
      (Or.inr ⟨(hc.fresh table hnew.fresh).1, fun rows hr => ?_⟩)
    exact absurd ((hc.fresh table hnew.fresh).2.symm.trans hr) (by simp)
  | @undercount n table rows hnew hrows hlt =>
    refine hc.marks ((h.state.addCallbackTable table).declareRows table rows)
      hnew.fresh hnew.state ⟨rfl, rfl, rfl, rfl, rfl⟩
      (fun _ hs => hs) (fun name => rfl) (fun name hne => ⟨rfl, Dict.get?_set_of_ne _ _ hne⟩)
      (Or.inr ⟨(hc.fresh table hnew.fresh).1, fun rows' hr => ?_⟩)
    obtain rfl : rows = rows' := Option.some.inj ((Dict.get?_set_self _ _ _).symm.trans hr)
    rwa [← hc.committed table]
  | complete hn hs htables =>
    refine hc.enters (silent_notify hn (by decide)) (fun _ => by split_ifs <;> decide)
      (fun hr _ => Or.inl (hc.started hr (by rw [hs]; decide)))
      (fun _ _ _ => ⟨Or.inr hn, htables⟩) (fun he => ?_) fun _ he => ?_
    · split_ifs at he with hmatch
      exact Bool.eq_false_iff.2 hmatch
    · split_ifs at he with hmatch
      · exact hmatch
      · exact absurd he (by decide)
  | commit hrows hne => exact hc.commits hrows hne
  | stream hs =>
    have hcomplete (hr : h.state.required = true) : h.state.state = .callbacksComplete :=
      hs.resolve_right (hc.kind hr)
    exact hc.enters (fun table => ⟨rfl, rfl⟩) (fun _ => by decide)
      (fun hr _ => Or.inl (hc.started hr (by rw [hcomplete hr]; decide)))
      (fun hr _ _ => by
        obtain ⟨hsaw, htables⟩ := hc.completed hr (by rw [hcomplete hr]; decide)
          (by rw [hcomplete hr]; decide)
        exact ⟨Or.inl hsaw, htables⟩)
      (fun he => absurd he (by decide)) fun hr _ => hc.matched hr (Or.inl (hcomplete hr))

end Consistent

/-- The invariant holds along every run. -/
theorem consistent_ofCalls (required : Bool) (expectedTables : Finset String)
    (calls : List (SnapshotCall C V)) : (ofCalls required expectedTables calls).Consistent := by
  induction calls using List.reverseRecOn with
  | nil => exact consistent_nil required expectedTables
  | append_singleton calls call ih =>
    rw [ofCalls, List.foldl_append]
    exact ih.step call

theorem ofCalls_append_singleton (required : Bool) (expectedTables : Finset String)
    (calls : List (SnapshotCall C V)) (call : SnapshotCall C V) :
    ofCalls required expectedTables (calls ++ [call]) =
      (ofCalls required expectedTables calls).step call := by
  rw [ofCalls, List.foldl_append]
  rfl

/-! ### Completion safety -/

namespace Consistent

variable {h : SnapshotHistory C V}

/-- Equal counts of every expected table are the counts of accepted scans. -/
theorem evidence (hc : h.Consistent) (hrequired : h.state.required = true)
    (hstate : h.state.state = .callbacksComplete ∨ h.state.state = .streaming) :
    h.Saw .started ∧ h.Saw .completed ∧
      ∀ table ∈ h.state.expectedTables, h.scans table = [(h.committed table : ℤ)] := by
  have hawaiting : h.state.state ≠ .awaitingCallbacks := by
    rcases hstate with hs | hs <;> rw [hs] <;> decide
  obtain ⟨hsaw, htables⟩ := hc.completed hrequired hawaiting
    (by rcases hstate with hs | hs <;> rw [hs] <;> decide)
  refine ⟨hc.started hrequired hawaiting, hsaw, fun table ht => ?_⟩
  have hcount := of_decide_eq_true (hc.matched hrequired hstate) table ht
  have hcommitted : (h.state.committedRows.get? table).getD 0 = h.committed table :=
    hc.committed table
  rw [hcommitted] at hcount
  rcases hc.marked table (htables ▸ ht) with ⟨rows, hscans, hrows⟩ | ⟨_, hlt⟩
  · obtain rfl : rows = h.committed table := Option.some.inj (hrows.symm.trans hcount)
    exact hscans
  · exact absurd (hlt _ hcount) (lt_irrefl _)

/-- `will_complete_after_commit` and `observe_committed_group` agree on a validated group. -/
theorem predicted (hc : h.Consistent) {units : List (CompleteUnit C V)}
    (hready : h.state.commitReady units = .ok true) :
    ∃ s', h.state.observeCommittedGroup units = .ok () s' ∧
      h.state.willCompleteAfterCommit units = .ok s'.phaseEnded := by
  obtain ⟨rows, hrows, _⟩ := except_bind_eq_ok.1 hready
  have hwill : h.state.willCompleteAfterCommit units = h.state.willCompleteAfter rows false := by
    rw [willCompleteAfterCommit, hrows]
    rfl
  rw [hwill]
  by_cases hnil : rows = []
  · subst hnil
    refine ⟨h.state, by simp only [observeCommittedGroup, hrows, if_pos], ?_⟩
    by_cases hended : h.state.phaseEnded = true
    · rw [willCompleteAfter, if_pos hended, hended]
    · rw [willCompleteAfter, if_neg hended, Bool.eq_false_iff.2 hended]
      by_cases hstate : h.state.state = .completionNotified
      · rw [if_neg (not_not.2 hstate)]
        exact congrArg _ (hc.unmatched hstate)
      · rw [if_pos hstate]
        rfl
  · refine ⟨_, observeCommittedGroup_of_rows hrows hnil, ?_⟩
    rcases phase_of_rows hrows hnil with hphase | hphase
    · simp [willCompleteAfter, phaseEnded, hphase, SnapshotState.isTerminal]
    · by_cases hmatch : h.state.countsMatch (projectedRows h.state.committedRows rows) = true
      · simp [willCompleteAfter, phaseEnded, hphase, hmatch, SnapshotState.isTerminal]
      · simp [willCompleteAfter, phaseEnded, hphase, hmatch, SnapshotState.isTerminal]

/-- An undercounting scan leaves the count it declared. -/
theorem not_bounded_of_undercounts (hc : h.Consistent) {call : SnapshotCall C V}
    (hunder : Undercounts h.state call) :
    ∃ table declared, (h.step call).state.callbackRows.get? table = some declared ∧
      declared < (h.step call).committed table := by
  cases call with
  | notify n =>
    obtain ⟨table, hnew, rows, hrows, hlt⟩ := hunder
    have hrun : (SnapshotCall.notify n : SnapshotCall C V).run h.state =
        .error (.beyondDeclared table (h.state.committedOf table) rows)
          ((h.state.addCallbackTable table).declareRows table rows) := by
      change h.state.observeNotification n = _
      rw [observeNotification_of_scansNew hnew]
      simp only [declareScan, hrows, Int.toNat_natCast, if_pos hlt]
      rw [if_neg (by omega)]
    refine ⟨table, rows, ?_, ?_⟩
    · rw [step_eq, hrun]
      exact Dict.get?_set_self _ _ _
    · rw [step_eq, hrun]
      exact (hc.committed table).symm ▸ hlt
  | _ => exact absurd hunder (by simp [Undercounts])

/-- Every other call keeps the bound. -/
theorem bounded_step (hc : h.Consistent)
    (hbounded : ∀ table declared, h.state.callbackRows.get? table = some declared →
      h.committed table ≤ declared) {call : SnapshotCall C V}
    (hunder : ¬ Undercounts h.state call) {table : String} {declared : ℕ}
    (hdeclared : (h.step call).state.callbackRows.get? table = some declared) :
    (h.step call).committed table ≤ declared := by
  rw [step_eq] at hdeclared ⊢
  have hmoves := SnapshotCompletion.moves call h.state
  generalize isAccepted (call.run h.state) = accepted at hmoves hdeclared ⊢
  generalize after (call.run h.state) = s' at hmoves hdeclared ⊢
  cases hmoves with
  | still hsilent =>
    cases accepted with
    | false => exact hbounded table declared hdeclared
    | true =>
      rw [if_pos rfl, (log_append_of_silent h _ call table (hsilent rfl)).1]
      exact hbounded table declared hdeclared
  | start hn hs =>
    rw [if_pos rfl, committed_append]
    exact hbounded table declared hdeclared
  | @scan n name rows hnew hrows hle =>
    rw [if_pos rfl, committed_append]
    change ((h.state.callbackRows.set name rows).get? table) = _ at hdeclared
    rw [Dict.get?_set] at hdeclared
    split_ifs at hdeclared with he
    · subst he
      rw [hc.committed] at hle
      exact hle.trans_eq (Option.some.inj hdeclared)
    · exact hbounded table declared hdeclared
  | mark hnew hrows => exact hbounded table declared hdeclared
  | undercount hnew hrows hlt => exact absurd ⟨_, hnew, _, hrows, hlt⟩ hunder
  | complete hn hs htables =>
    rw [if_pos rfl, committed_append]
    exact hbounded table declared hdeclared
  | @commit units rows hrows hne =>
    change (rows.foldl record h.state).callbackRows.get? table = _ at hdeclared
    rw [(foldl_record rows h.state).2.2.2.2.1] at hdeclared
    rcases validateSnapshotUnits_eq_ok hrows with ⟨_, hnil⟩ | ⟨_, _, _, hbeyond⟩
    · exact absurd hnil hne
    have hle : h.state.committedOf table ≤ declared := by
      rw [hc.committed]
      exact hbounded table declared hdeclared
    have hprojected := le_of_beyondDeclared hbeyond hdeclared hle
    rw [getD_projectedRows, (rows_of_validated hrows).2] at hprojected
    rw [if_pos rfl, committed_append, ← hc.committed]
    exact hprojected
  | stream hs =>
    rw [if_pos rfl, committed_append]
    exact hbounded table declared hdeclared

end Consistent

end SnapshotHistory

open SnapshotHistory in
/-- **Completion safety.** Along every run, refused calls included, the model is safe in every
state exactly when no first scan of a table declares fewer rows than were committed. -/
theorem completionSafe_iff (required : Bool) (expectedTables : Finset String)
    (calls : List (SnapshotCall C V)) :
    (∀ before, before <+: calls → CompletionSafe (ofCalls required expectedTables before)) ↔
      ∀ before call, before ++ [call] <+: calls →
        ¬ Undercounts (ofCalls required expectedTables before).state call := by
  refine ⟨fun hsafe before call hstart hunder => ?_, fun hunder before => ?_⟩
  · obtain ⟨table, declared, hdeclared, hlt⟩ :=
      (consistent_ofCalls required expectedTables before).not_bounded_of_undercounts hunder
    rw [← ofCalls_append_singleton] at hdeclared hlt
    have := (hsafe _ hstart).bounded table declared hdeclared
    omega
  · intro hstart
    have hc := consistent_ofCalls required expectedTables before
    refine ⟨hc.evidence, ?_, fun _ => hc.predicted⟩
    -- The bound, by induction on the calls made so far.
    clear hc
    induction before using List.reverseRecOn with
    | nil => exact fun table declared hdeclared => Nat.zero_le _
    | append_singleton before call ih =>
      intro table declared hdeclared
      rw [ofCalls_append_singleton] at hdeclared ⊢
      exact (consistent_ofCalls required expectedTables before).bounded_step
        (ih ((List.prefix_append before [call]).trans hstart)) (hunder before call hstart)
        hdeclared

namespace Accounts

/-- Two snapshot rows of the accounts. -/
def imagedRows : CompleteUnit Column String where
  kind := .snapshotChunk
  schema := some "public"
  table := some "accounts"
  events := [{ kind := .snapshot }, { kind := .snapshot }]

/-- The scan of the accounts ends with a declared count. -/
def scanned (rows : ℤ) : SnapshotNotification where
  observation := "TABLE_SCAN_COMPLETED"
  status := some "SUCCEEDED"
  scannedCollection := some "public.accounts"
  totalRowsScanned := some (.int rows)

/-- Two rows are committed before the scan declares one. -/
def miscounted : List (SnapshotCall Column String) :=
  [.notify { observation := "STARTED" }, .committed [imagedRows], .notify (scanned 1)]

/-- The committed rows exceed the count the refused scan left. -/
theorem not_completionSafe_miscounted : ¬ ∀ before, before <+: miscounted →
    CompletionSafe (SnapshotHistory.ofCalls true {"public.accounts"} before) := by
  intro h
  have hbounded := (h miscounted (List.prefix_refl _)).bounded "public.accounts" 1
    (by rfl)
  exact absurd hbounded (by decide)

end Accounts

/-! ### Refused calls -/

/-- A refused call leaves no trace: the state is the one before, and so is the outcome of every
call made next. -/
def LeavesNoTrace (s : SnapshotCompletion) (call : SnapshotCall C V) : Prop :=
  ∀ error s', call.run s = .error error s' →
    s' = s ∧ ∀ next : SnapshotCall C V, next.run s' = next.run s

/-- A scan marks a new table, and its count is missing, unreadable, negative or below the
committed rows. -/
def MarksRefused (s : SnapshotCompletion) : SnapshotCall C V → Prop
  | .notify n => ∃ table, ScansNew s n table ∧
      ∀ rows : ℕ, n.totalRowsScanned = some (.int rows) → rows < s.committedOf table
  | _ => False

namespace SnapshotCompletion

/-- A scan that cannot keep its count is refused with its table marked. -/
theorem run_of_marksRefused {s : SnapshotCompletion} {call : SnapshotCall C V}
    (h : MarksRefused s call) :
    ∃ error s' table, call.run s = .error error s' ∧ table ∈ s'.callbackTables ∧
      table ∉ s.callbackTables := by
  cases call with
  | notify n =>
    obtain ⟨table, hnew, hrows⟩ := h
    have hmarked (s' : SnapshotCompletion) (hs' : s'.callbackTables =
        (s.addCallbackTable table).callbackTables) : table ∈ s'.callbackTables := by
      rw [hs']
      exact Finset.mem_insert_self _ _
    have hrun : (SnapshotCall.notify n : SnapshotCall C V).run s = s.declareScan table n :=
      observeNotification_of_scansNew hnew
    rw [hrun, declareScan]
    cases htotal : n.totalRowsScanned with
    | none => exact ⟨_, _, table, rfl, hmarked _ rfl, hnew.fresh⟩
    | some total =>
      cases total with
      | unparsable => exact ⟨_, _, table, rfl, hmarked _ rfl, hnew.fresh⟩
      | int rows =>
        dsimp only
        by_cases hneg : rows < 0
        · rw [if_pos hneg]
          exact ⟨_, _, table, rfl, hmarked _ rfl, hnew.fresh⟩
        · have hlt := hrows rows.toNat (by rw [htotal, Int.toNat_of_nonneg (by omega)])
          rw [if_neg hneg, if_pos hlt]
          exact ⟨_, _, table, rfl, hmarked _ rfl, hnew.fresh⟩
  | _ => exact absurd h (by simp [MarksRefused])

/-- Any other refused call leaves the state as it was. -/
theorem unchanged_of_refused {s s' : SnapshotCompletion} {call : SnapshotCall C V}
    {error : ObservationError} (h : ¬ MarksRefused s call) (hrun : call.run s = .error error s') :
    s' = s := by
  have hmoves := SnapshotCompletion.moves call s
  rw [hrun] at hmoves
  have hmoves : Moves s call false s' := hmoves
  cases hmoves with
  | still _ => rfl
  | mark hnew hrows =>
    exact absurd ⟨_, hnew, fun rows hr => absurd hr (hrows rows)⟩ h
  | @undercount n table rows hnew hrows hlt =>
    refine absurd ⟨table, hnew, fun rows' hr => ?_⟩ h
    rw [hrows] at hr
    have : (rows : ℤ) = rows' := PyInt.int.inj (Option.some.inj hr)
    omega

end SnapshotCompletion

/-- **Refused observations.** A refused call leaves no trace exactly when it is not a scan that
marks a new table with a count it cannot keep. -/
theorem leavesNoTrace_iff (s : SnapshotCompletion) (call : SnapshotCall C V) :
    LeavesNoTrace s call ↔ ¬ MarksRefused s call := by
  refine ⟨fun htrace hmarks => ?_, fun hmarks error s' hrun => ?_⟩
  · obtain ⟨error, s', table, hrun, hmem, hfresh⟩ := SnapshotCompletion.run_of_marksRefused hmarks
    rw [(htrace error s' hrun).1] at hmem
    exact hfresh hmem
  · have hsame := SnapshotCompletion.unchanged_of_refused hmarks hrun
    exact ⟨hsame, fun next => by rw [hsame]⟩

namespace Accounts

/-- A scan without a count. -/
def uncounted : SnapshotNotification := { scanned 2 with totalRowsScanned := none }

/-- The scan is refused, and its corrected delivery is refused as a second one. -/
theorem not_leavesNoTrace_uncounted : ¬ LeavesNoTrace
    (SnapshotHistory.ofCalls true {"public.accounts"}
      [(.notify { observation := "STARTED" } : SnapshotCall Column String)]).state
    (.notify uncounted : SnapshotCall Column String) := by
  intro h
  have hmarks : MarksRefused (SnapshotHistory.ofCalls true {"public.accounts"}
      [(.notify { observation := "STARTED" } : SnapshotCall Column String)]).state
      (.notify uncounted : SnapshotCall Column String) := by
    refine ⟨"public.accounts", ⟨?_, ?_, rfl, ?_, ?_, ?_⟩,
      fun rows hr => absurd hr (by simp [uncounted])⟩
    all_goals decide
  obtain ⟨error, s', table, hrun, hmem, hfresh⟩ := SnapshotCompletion.run_of_marksRefused hmarks
  rw [(h error s' hrun).1] at hmem
  exact hfresh hmem

end Accounts

end CdcFlight
