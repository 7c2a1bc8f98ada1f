import CdcFlight.Lib.Dict
import CdcFlight.Lib.Run
import CdcFlight.States.Machine

/-!
# The lifecycle of a table

`table_lifecycle`, the one writer of `table_state.snapshot_state`, with the two other statements
that touch its rows: `destination.write_table_policy_state`, whose INSERT leaves the state to the
column's default, and the UPDATEs of other columns. A row is found by its primary key. A call that
raises writes nothing, as every check comes before the first statement.

## Main definitions

* `CdcFlight.Lifecycle`, `CdcFlight.tableLifecycle`: the states and the declared edges.
* `CdcFlight.Registry`: the table `table_state`, with `transition`, `transitionAll`, `resetAll` and
  `forget`.
* `CdcFlight.LifecycleCall`, `CdcFlight.Registry.call`: what callers may ask for.

## Main results

* `CdcFlight.Registry.complete_after_owing`: a table goes along declared edges, and becomes
  `complete` only through a snapshot.
* `CdcFlight.Registry.policy_run`: its policy outlives every call but the ones that speak of it.
* `CdcFlight.Registry.get?_resetAll`: a reset, row by row.
-/

namespace CdcFlight

open Lib

/-! ### States -/

/-- The states of `TABLE_LIFECYCLE`; `absent` stands for no row. -/
inductive Lifecycle
  | absent
  | none
  | inProgress
  | complete
  | awaitingSnapshot
  | gone
deriving DecidableEq

namespace Lifecycle

/-- The states, in order. -/
def states : List Lifecycle := [absent, none, inProgress, complete, awaitingSnapshot, gone]

/-- The edges of `TABLE_LIFECYCLE`. -/
def edges : List (Lifecycle × Lifecycle) :=
  [(absent, none), (absent, inProgress), (absent, awaitingSnapshot), (none, inProgress),
    (complete, inProgress), (awaitingSnapshot, inProgress), (inProgress, complete),
    (awaitingSnapshot, complete), (none, awaitingSnapshot), (complete, awaitingSnapshot),
    (inProgress, awaitingSnapshot), (awaitingSnapshot, gone), (gone, awaitingSnapshot),
    (awaitingSnapshot, awaitingSnapshot), (complete, complete), (none, none), (inProgress, none),
    (complete, none), (awaitingSnapshot, none), (none, absent), (inProgress, absent),
    (complete, absent), (awaitingSnapshot, absent), (gone, absent)]

theorem mem_states (s : Lifecycle) : s ∈ states := by cases s <;> simp [states]

end Lifecycle

/-- `TABLE_LIFECYCLE`. -/
def tableLifecycle : Machine Lifecycle where
  states := Lifecycle.states
  edges := Lifecycle.edges
  terminal := [.complete, .gone, .absent]
  initialStates := [.absent]
  states_nodup := by decide
  edges_subset e _ := ⟨Lifecycle.mem_states e.1, Lifecycle.mem_states e.2⟩
  terminal_subset s _ := Lifecycle.mem_states s
  initial_nodup := List.nodup_singleton _
  initial_subset s _ := Lifecycle.mem_states s

/-- `LIFECYCLE_OWING_WORK`. -/
def owingWork : List Lifecycle :=
  Lifecycle.states.filter fun s => !tableLifecycle.isTerminal s && s != .none

/-- `LIFECYCLE_DURABLE_VALUES`. -/
def durableValues : List Lifecycle := Lifecycle.states.filter (· != .absent)

@[simp] theorem mem_durableValues {s : Lifecycle} : s ∈ durableValues ↔ s ≠ .absent := by
  cases s <;> simp [durableValues, Lifecycle.states]

/-- Only work that was owed is completed. -/
theorem owing_of_complete {s : Lifecycle} (h : (s, .complete) ∈ tableLifecycle.edges) :
    s = .complete ∨ s ∈ owingWork := by
  have hall : ∀ e ∈ Lifecycle.edges, e.2 = .complete → e.1 = .complete ∨ e.1 ∈ owingWork := by
    decide
  exact hall _ h rfl

/-! ### Rows -/

/-- The primary key of `table_state`. -/
structure RelationKey where
  pipeline : String
  sourceSchema : String
  sourceTable : String
deriving DecidableEq

/-- `"<schema>.<table>"`. -/
def RelationKey.qualified (key : RelationKey) : String := key.sourceSchema ++ "." ++ key.sourceTable

/-- Neither part of the name has a dot. -/
structure RelationKey.Plain (key : RelationKey) : Prop where
  schema : '.' ∉ key.sourceSchema.toList
  table : '.' ∉ key.sourceTable.toList

/-- Only a dot makes a qualified name ambiguous. -/
theorem RelationKey.Plain.eq {key j : RelationKey} (h : key.Plain)
    (hpipeline : j.pipeline = key.pipeline) (hname : j.qualified = key.qualified) : j = key := by
  have hlist := congrArg String.toList hname
  simp only [RelationKey.qualified, String.toList_append, List.append_assoc] at hlist
  obtain ⟨hschema, -, htable⟩ :=
    (List.append_cons_inj_of_notMem h.schema h.table).1 hlist.symm
  obtain ⟨p, s, t⟩ := key
  obtain ⟨p', s', t'⟩ := j
  rw [RelationKey.mk.injEq]
  exact ⟨hpipeline, (String.toList_inj.1 hschema).symm, (String.toList_inj.1 htable).symm⟩

/-- The columns that a replaced row takes over, with their defaults. -/
structure PolicyColumns where
  refreshMode : String := "cdc"
  deleteMode : String := "hard"
  historyMode : String := "none"
  keyStrategy : String := "pk"
  keyColumns : Option (List String) := none
  deletePolicyEpoch : ℕ := 1
  deletePolicyDigest : Option String := none
  piiPolicyEpoch : ℕ := 0
  piiPolicyDigest : Option String := none
  piiSaltId : Option String := none
deriving DecidableEq

/-- The columns of a row beside its key and its state. -/
structure StateColumns where
  targetTable : String
  snapshotEpoch : ℕ := 0
  snapshotLsn : Option ℕ := none
  lastCommitId : Option ℕ := none
  policy : PolicyColumns := {}
deriving DecidableEq

/-- A row of `table_state`. -/
structure TableState extends StateColumns where
  snapshotState : Lifecycle
deriving DecidableEq

/-- The table `table_state`. -/
abbrev Registry := Dict RelationKey TableState

/-- `UnknownState` and `IllegalTransition`. -/
inductive LifecycleError
  | unknownState (qualified : String) (state : Lifecycle)
  | illegalTransition (illegal : IllegalTransition Lifecycle)
deriving DecidableEq

/-- The arguments of `transition`; `none` is `_KEEP`. -/
structure TransitionArgs where
  to' : Lifecycle
  targetTable : Option String := none
  epoch : Option ℕ := none
  snapshotLsn : Option (Option ℕ) := none
  lastCommitId : Option (Option ℕ) := none
  historyMode : Option String := none
  replace : Bool := false

namespace TransitionArgs

/-- `target_table or source_table`. -/
def insertTarget (args : TransitionArgs) (key : RelationKey) : String :=
  match args.targetTable with
  | some target => if target = "" then key.sourceTable else target
  | none => key.sourceTable

/-- The row of the INSERT. -/
def inserted (args : TransitionArgs) (key : RelationKey) (policy : PolicyColumns) : TableState where
  snapshotState := args.to'
  targetTable := args.insertTarget key
  snapshotEpoch := args.epoch.getD 0
  snapshotLsn := args.snapshotLsn.getD none
  lastCommitId := args.lastCommitId.getD none
  policy := policy

/-- The row after the UPDATE. -/
def updated (args : TransitionArgs) (row : TableState) : TableState where
  snapshotState := args.to'
  targetTable := args.targetTable.getD row.targetTable
  snapshotEpoch := args.epoch.getD row.snapshotEpoch
  snapshotLsn := args.snapshotLsn.getD row.snapshotLsn
  lastCommitId := args.lastCommitId.getD row.lastCommitId
  policy := row.policy

end TransitionArgs

namespace Registry

/-- The state of a table, `absent` without a row. -/
def stateAt (r : Registry) (key : RelationKey) : Lifecycle :=
  (r.get? key).elim .absent (·.snapshotState)

/-- `_parse`. -/
def parse (key : RelationKey) (state : Lifecycle) : Except LifecycleError Lifecycle :=
  if state ∈ durableValues then .ok state else .error (.unknownState key.qualified state)

/-- `read`. -/
def read (r : Registry) (key : RelationKey) : Except LifecycleError Lifecycle :=
  match r.get? key with
  | none => .ok .absent
  | some row => parse key row.snapshotState

/-- `read_all`: the state under each qualified name. -/
def readAll (r : Registry) (pipeline : String) : Except LifecycleError (Dict String Lifecycle) :=
  (r.items.filter fun item => item.1.pipeline = pipeline).foldlM
    (fun states item => (parse item.1 item.2.snapshotState).map (states.set item.1.qualified ·)) ∅

/-- `_check`. -/
def check (frm to' : Lifecycle) : Except LifecycleError Unit :=
  (tableLifecycle.check frm to').mapError .illegalTransition

/-- `transition`. -/
def transition (r : Registry) (key : RelationKey) (args : TransitionArgs) :
    Except LifecycleError Registry := do
  let frm ← r.read key
  check frm args.to'
  match r.get? key with
  | none => return r.set key (args.inserted key { historyMode := args.historyMode.getD "none" })
  | some row =>
    if args.replace then return (r.erase key).set key (args.inserted key row.policy)
    else return r.set key (args.updated row)

/-- The UPDATE of `transition_all`, of one row. -/
def moved (pipeline : String) (frm to' : Lifecycle) (reset : Bool) (key : RelationKey)
    (row : TableState) : TableState :=
  if key.pipeline = pipeline ∧ row.snapshotState = frm then
    if reset then { row with
      snapshotState := to', snapshotEpoch := 0, snapshotLsn := none, lastCommitId := none }
    else { row with snapshotState := to' }
  else row

/-- `transition_all`; the names of the tables are left out. -/
def transitionAll (r : Registry) (pipeline : String) (frm to' : Lifecycle) (reset : Bool) :
    Except LifecycleError Registry := do
  if frm ≠ to' then check frm to'
  return r.filterMapValues fun key row => some (moved pipeline frm to' reset key row)

/-- `reset_all`. -/
def resetAll (r : Registry) (pipeline : String) : Except LifecycleError Registry := do
  let r ← [Lifecycle.inProgress, .complete, .awaitingSnapshot].foldlM
    (fun r frm => r.transitionAll pipeline frm .none true) r
  r.transitionAll pipeline .none .none true

/-- `forget`. -/
def forget (r : Registry) (key : RelationKey) : Except LifecycleError Registry := do
  let frm ← r.read key
  if frm = .absent then return r
  check frm .absent
  return r.erase key

/-- `destination.write_table_policy_state`: an UPDATE, or an INSERT with the default state. -/
def writePolicy (r : Registry) (key : RelationKey) (update : StateColumns → StateColumns)
    (inserted : StateColumns) : Registry :=
  match r.get? key with
  | some row => r.set key { row with toStateColumns := update row.toStateColumns }
  | none => r.set key { inserted with snapshotState := .none }

end Registry

/-- A call on the registry, by whomever. -/
inductive LifecycleCall
  | transition (key : RelationKey) (args : TransitionArgs)
  | transitionAll (pipeline : String) (frm to' : Lifecycle) (reset : Bool)
  | resetAll (pipeline : String)
  | forget (key : RelationKey)
  | writePolicy (key : RelationKey) (update : StateColumns → StateColumns) (inserted : StateColumns)

namespace Registry

/-- The registry after a call. -/
def call (r : Registry) : LifecycleCall → Registry
  | .transition key args => (r.transition key args).toOption.getD r
  | .transitionAll pipeline frm to' reset =>
    (r.transitionAll pipeline frm to' reset).toOption.getD r
  | .resetAll pipeline => (r.resetAll pipeline).toOption.getD r
  | .forget key => (r.forget key).toOption.getD r
  | .writePolicy key update inserted => r.writePolicy key update inserted

/-- The registry after several calls. -/
def run (r : Registry) (calls : List LifecycleCall) : Registry := calls.foldl call r

/-! ### What a call does -/

variable {r r' : Registry} {key j : RelationKey}

theorem stateAt_of_get? {row : TableState} (h : r.get? key = some row) :
    r.stateAt key = row.snapshotState := by rw [stateAt, h, Option.elim_some]

theorem stateAt_of_none (h : r.get? key = none) : r.stateAt key = .absent := by
  rw [stateAt, h, Option.elim_none]

theorem read_ok {state : Lifecycle} (h : r.read key = .ok state) : r.stateAt key = state := by
  rw [read] at h
  split at h
  · rename_i hnone
    rw [stateAt_of_none hnone, Except.ok.inj h]
  · rename_i row hrow
    rw [stateAt_of_get? hrow]
    rw [parse] at h
    split_ifs at h
    exact Except.ok.inj h

theorem check_eq_ok_iff {frm to' : Lifecycle} {u : Unit} :
    check frm to' = .ok u ↔ (frm, to') ∈ tableLifecycle.edges := by
  rw [check, ← Machine.check_eq_ok_iff (u := u)]
  cases tableLifecycle.check frm to' <;> simp [Except.mapError]

/-- What `read_all` says of a name is the state of a row with that name. -/
theorem get?_readAll {pipeline name : String} {states : Dict String Lifecycle} {state : Lifecycle}
    (h : r.readAll pipeline = .ok states) (hstate : states.get? name = some state) :
    ∃ key, key.pipeline = pipeline ∧ key.qualified = name ∧ r.stateAt key = state := by
  have hrow {item : RelationKey × TableState}
      (hitem : item ∈ r.items.filter fun item => item.1.pipeline = pipeline) :
      item.1.pipeline = pipeline ∧ r.stateAt item.1 = item.2.snapshotState := by
    obtain ⟨hmem, hpipeline⟩ := List.mem_filter.1 hitem
    exact ⟨of_decide_eq_true hpipeline, stateAt_of_get? (Dict.get?_eq_some_iff.2 hmem)⟩
  rw [readAll] at h
  generalize r.items.filter (fun item => item.1.pipeline = pipeline) = items at h hrow
  induction items using List.reverseRecOn generalizing states with
  | nil =>
    obtain rfl := Except.ok.inj h
    cases hstate
  | append_singleton items item ih =>
    rw [List.foldlM_append, except_bind_eq_ok] at h
    obtain ⟨states₁, h₁, h⟩ := h
    rw [List.foldlM_cons, except_bind_eq_ok] at h
    obtain ⟨states₂, h₂, h⟩ := h
    obtain ⟨parsed, hparsed, rfl⟩ := except_map_eq_ok.1 h₂
    obtain rfl := Except.ok.inj h
    rw [Dict.get?_set] at hstate
    split_ifs at hstate with hname
    · obtain ⟨hpipeline, hat⟩ := hrow (List.mem_append_right items (List.mem_singleton_self item))
      refine ⟨item.1, hpipeline, hname.symm, ?_⟩
      rw [parse] at hparsed
      split_ifs at hparsed
      rw [hat, Except.ok.inj hparsed, Option.some.inj hstate]
    · exact ih hstate h₁ fun hitem => hrow (List.mem_append_left [item] hitem)

/-- A transition goes along a declared edge, writes one row and keeps its policy. -/
theorem transition_ok {args : TransitionArgs} (h : r.transition key args = .ok r') :
    (r.stateAt key, args.to') ∈ tableLifecycle.edges ∧
      ∃ row, row.snapshotState = args.to' ∧
        (∀ old, r.get? key = some old → row.policy = old.policy) ∧
        ∀ j, r'.get? j = if j = key then some row else r.get? j := by
  rw [transition, except_bind_eq_ok] at h
  obtain ⟨frm, hread, h⟩ := h
  rw [except_bind_eq_ok] at h
  obtain ⟨_, hcheck, h⟩ := h
  refine ⟨read_ok hread ▸ check_eq_ok_iff.1 hcheck, ?_⟩
  split at h
  · rename_i hnone
    obtain rfl := Except.ok.inj h
    refine ⟨args.inserted key { historyMode := args.historyMode.getD "none" }, rfl,
      fun old hold => ?_, fun j => Dict.get?_set _ _ _ _⟩
    cases hnone.symm.trans hold
  · rename_i row hrow
    have hpolicy {policy : PolicyColumns} (hp : policy = row.policy) (old : TableState)
        (hold : r.get? key = some old) : policy = old.policy := by
      rw [hp, Option.some.inj (hrow.symm.trans hold)]
    split_ifs at h
    · obtain rfl := Except.ok.inj h
      refine ⟨args.inserted key row.policy, rfl, hpolicy rfl, fun j => ?_⟩
      rw [Dict.get?_set, Dict.get?_erase]
      split_ifs <;> rfl
    · obtain rfl := Except.ok.inj h
      exact ⟨args.updated row, rfl, hpolicy rfl, fun j => Dict.get?_set _ _ _ _⟩

/-- `transition_all` goes along one declared edge, or along none. -/
theorem transitionAll_ok {pipeline : String} {frm to' : Lifecycle} {reset : Bool}
    (h : r.transitionAll pipeline frm to' reset = .ok r') :
    (frm = to' ∨ (frm, to') ∈ tableLifecycle.edges) ∧
      ∀ j, r'.get? j = (r.get? j).map (moved pipeline frm to' reset j) := by
  have hget (j : RelationKey) :
      (r.filterMapValues fun key row => some (moved pipeline frm to' reset key row)).get? j =
        (r.get? j).map (moved pipeline frm to' reset j) := by
    rw [Dict.get?_filterMapValues]
    cases r.get? j <;> rfl
  unfold transitionAll at h
  split_ifs at h with heq
  · rw [except_bind_eq_ok] at h
    obtain ⟨_, hcheck, h⟩ := h
    obtain rfl := Except.ok.inj h
    exact ⟨.inr (check_eq_ok_iff.1 hcheck), hget⟩
  · obtain rfl := Except.ok.inj h
    exact ⟨.inl (not_not.1 heq), hget⟩

theorem forget_ok (h : r.forget key = .ok r') :
    r' = r ∨ (r.stateAt key, .absent) ∈ tableLifecycle.edges ∧
      ∀ j, r'.get? j = if j = key then none else r.get? j := by
  rw [forget, except_bind_eq_ok] at h
  obtain ⟨frm, hread, h⟩ := h
  split_ifs at h
  · exact .inl (Except.ok.inj h).symm
  · rw [except_bind_eq_ok] at h
    obtain ⟨_, hcheck, h⟩ := h
    obtain rfl := Except.ok.inj h
    exact .inr ⟨read_ok hread ▸ check_eq_ok_iff.1 hcheck, Dict.get?_erase _ _⟩

/-- A row of a pipeline that `reset_all` speaks of. -/
def resetRow (pipeline : String) (key : RelationKey) (row : TableState) : TableState :=
  if key.pipeline = pipeline ∧
      row.snapshotState ∈ [Lifecycle.inProgress, .complete, .awaitingSnapshot, .none] then
    { row with
      snapshotState := .none, snapshotEpoch := 0, snapshotLsn := none, lastCommitId := none }
  else row

theorem transitionAll_none (r : Registry) (pipeline : String) (frm : Lifecycle)
    (h : frm = .none ∨ (frm, Lifecycle.none) ∈ tableLifecycle.edges) :
    ∃ r', r.transitionAll pipeline frm .none true = .ok r' ∧
      ∀ j, r'.get? j = (r.get? j).map (moved pipeline frm .none true j) := by
  have hok : ∃ r', r.transitionAll pipeline frm .none true = .ok r' := by
    unfold transitionAll
    split_ifs with hne
    · rw [(check_eq_ok_iff (u := ())).2 (h.resolve_left hne)]
      exact ⟨_, rfl⟩
    · exact ⟨_, rfl⟩
  obtain ⟨r', hr'⟩ := hok
  exact ⟨r', hr', (transitionAll_ok hr').2⟩

/-- **A reset**, row by row: the tables of the pipeline go back to `none` and lose their snapshot
columns, all but those that are gone; target and policy stay. -/
theorem get?_resetAll (r : Registry) (pipeline : String) :
    ∃ r', r.resetAll pipeline = .ok r' ∧
      ∀ key, r'.get? key = (r.get? key).map (resetRow pipeline key) := by
  obtain ⟨r₁, h₁, hget₁⟩ := transitionAll_none r pipeline .inProgress
    (.inr (by decide))
  obtain ⟨r₂, h₂, hget₂⟩ := transitionAll_none r₁ pipeline .complete
    (.inr (by decide))
  obtain ⟨r₃, h₃, hget₃⟩ := transitionAll_none r₂ pipeline .awaitingSnapshot
    (.inr (by decide))
  obtain ⟨r₄, h₄, hget₄⟩ := transitionAll_none r₃ pipeline .none (.inl rfl)
  refine ⟨r₄, ?_, fun key => ?_⟩
  · unfold resetAll
    simp only [List.foldlM_cons, List.foldlM_nil, h₁, h₂, h₃, h₄, bind, Except.bind, pure,
      Except.pure]
  · rw [hget₄, hget₃, hget₂, hget₁]
    simp only [Option.map_map]
    congr 1
    funext row
    simp only [Function.comp_apply, moved, resetRow, if_true]
    by_cases hkey : key.pipeline = pipeline
    · cases hstate : row.snapshotState <;> simp [hkey, hstate]
    · simp [hkey]

/-! ### Moves -/

/-- A state stays or goes along a declared edge. -/
def Declared (frm to' : Lifecycle) : Prop := frm = to' ∨ (frm, to') ∈ tableLifecycle.edges

/-- A declared move of one row of the table. -/
theorem declared_map {f : TableState → TableState} (hget : r'.get? key = (r.get? key).map f)
    (hf : ∀ row, Declared row.snapshotState (f row).snapshotState) :
    Declared (r.stateAt key) (r'.stateAt key) := by
  rw [stateAt, stateAt, hget]
  cases r.get? key with
  | none => exact .inl rfl
  | some row => exact hf row

theorem declared_moved {pipeline : String} {frm to' : Lifecycle} {reset : Bool}
    (h : Declared frm to') (row : TableState) :
    Declared row.snapshotState (moved pipeline frm to' reset key row).snapshotState := by
  rw [moved]
  split_ifs with hrow
  · exact hrow.2 ▸ h
  · exact hrow.2 ▸ h
  · exact .inl rfl

theorem declared_resetRow {pipeline : String} (row : TableState) :
    Declared row.snapshotState (resetRow pipeline key row).snapshotState := by
  rw [resetRow]
  split_ifs with hrow
  · have hall : ∀ s ∈ [Lifecycle.inProgress, .complete, .awaitingSnapshot, .none],
        (s, Lifecycle.none) ∈ Lifecycle.edges := by decide
    exact .inr (hall _ hrow.2)
  · exact .inl rfl

/-- A call that raises leaves the registry. -/
theorem getD_toOption {P : Registry → Prop} {m : Except LifecycleError Registry} (hr : P r)
    (hok : ∀ r', m = .ok r' → P r') : P (m.toOption.getD r) := by
  cases m with
  | error e => exact hr
  | ok r' => exact hok r' rfl

/-- A declared move of one table. -/
theorem declared_write {k : RelationKey} {row : Option TableState}
    (hget : ∀ j, r'.get? j = if j = k then row else r.get? j)
    (h : Declared (r.stateAt k) (row.elim .absent (·.snapshotState))) :
    Declared (r.stateAt key) (r'.stateAt key) := by
  rw [stateAt, stateAt, hget]
  split_ifs with hkey
  · exact hkey ▸ h
  · exact .inl rfl

/-- **Step.** Whatever is called, every table stays where it is or goes along a declared edge. -/
theorem declared_call (c : LifecycleCall) (key : RelationKey) :
    Declared (r.stateAt key) ((r.call c).stateAt key) := by
  have hraise {m : Except LifecycleError Registry}
      (h : ∀ r', m = .ok r' → Declared (r.stateAt key) (r'.stateAt key)) :
      Declared (r.stateAt key) (stateAt (m.toOption.getD r) key) :=
    getD_toOption (P := fun r' => Declared (r.stateAt key) (r'.stateAt key)) (.inl rfl) h
  cases c with
  | transition k args =>
    refine hraise fun r' hr' => ?_
    obtain ⟨hedge, row, hstate, -, hget⟩ := transition_ok hr'
    exact declared_write hget (.inr (by rwa [Option.elim_some, hstate]))
  | transitionAll pipeline frm to' reset =>
    refine hraise fun r' hr' => ?_
    obtain ⟨hedge, hget⟩ := transitionAll_ok hr'
    exact declared_map (hget key) (declared_moved hedge)
  | resetAll pipeline =>
    refine hraise fun r' hr' => ?_
    obtain ⟨r₁, hr₁, hget⟩ := get?_resetAll r pipeline
    obtain rfl := Except.ok.inj (hr₁.symm.trans hr')
    exact declared_map (hget key) declared_resetRow
  | forget k =>
    refine hraise fun r' hr' => ?_
    rcases forget_ok hr' with rfl | ⟨hedge, hget⟩
    · exact .inl rfl
    · exact declared_write hget (.inr hedge)
  | writePolicy k update inserted =>
    rw [call, writePolicy]
    split
    · rename_i row hrow
      refine declared_write (Dict.get?_set r k · _) (.inl ?_)
      rw [stateAt_of_get? hrow, Option.elim_some]
    · rename_i hnone
      refine declared_write (Dict.get?_set r k · _) (.inr ?_)
      rw [stateAt_of_none hnone]
      exact show (Lifecycle.absent, Lifecycle.none) ∈ Lifecycle.edges by decide

/-! ### Runs -/

/-- The states of a table, before the first call and after each one. -/
def history (r : Registry) (calls : List LifecycleCall) (key : RelationKey) : List Lifecycle :=
  (calls.scanl call r).map (·.stateAt key)

theorem isChain_history (r : Registry) (calls : List LifecycleCall) (key : RelationKey) :
    (r.history calls key).IsChain Declared := by
  induction calls generalizing r with
  | nil => exact List.isChain_singleton _
  | cons c calls ih =>
    have hrest := ih (r.call c)
    rw [history, List.scanl_cons, List.map_cons]
    rw [history] at hrest
    refine List.isChain_cons.2 ⟨fun b hb => ?_, hrest⟩
    have hfirst : b = (r.call c).stateAt key := by
      cases calls <;> simpa [List.scanl_cons, eq_comm] using hb
    exact hfirst ▸ declared_call c key

/-- **A table is trusted only after a snapshot.** Whatever is called, also out of order: a table
goes along declared edges only; and one that becomes `complete` was owed a snapshot right before. -/
theorem complete_after_owing (r : Registry) (calls : List LifecycleCall) (key : RelationKey) :
    (r.history calls key).IsChain Declared ∧
      (r.stateAt key ≠ .complete → (r.run calls).stateAt key = .complete →
        ∃ before c after, calls = before ++ c :: after ∧
          (r.run before).stateAt key ∈ owingWork ∧
            ((r.run before).call c).stateAt key = .complete) := by
  refine ⟨isChain_history r calls key, fun hstart hend => ?_⟩
  induction calls using List.reverseRecOn with
  | nil => exact absurd hend hstart
  | append_singleton calls c ih =>
    have hlast : r.run (calls ++ [c]) = (r.run calls).call c := List.foldl_append
    rw [hlast] at hend
    by_cases hbefore : (r.run calls).stateAt key = .complete
    · obtain ⟨before, c', after, rfl, howing, hdone⟩ := ih hbefore
      exact ⟨before, c', after ++ [c], by simp, howing, hdone⟩
    · refine ⟨calls, c, [], rfl, ?_, hend⟩
      rcases declared_call (r := r.run calls) c key with heq | hedge
      · exact absurd (heq.trans hend) hbefore
      · rw [hend] at hedge
        exact (owing_of_complete hedge).resolve_left hbefore

/-! ### Policies -/

end Registry

/-- The call neither forgets the table nor writes its policy. It may replace the row or reset the
whole pipeline. -/
def LifecycleCall.KeepsPolicy (key : RelationKey) : LifecycleCall → Prop
  | .forget k => k ≠ key
  | .writePolicy k _ _ => k ≠ key
  | _ => True

namespace Registry

variable {r : Registry} {key : RelationKey}

/-- A row under the key, with the policy. -/
def HasPolicy (r : Registry) (key : RelationKey) (policy : PolicyColumns) : Prop :=
  ∃ row, r.get? key = some row ∧ row.policy = policy

theorem HasPolicy.map {policy : PolicyColumns} (h : r.HasPolicy key policy) {r' : Registry}
    {f : TableState → TableState} (hget : r'.get? key = (r.get? key).map f)
    (hf : ∀ row, (f row).policy = row.policy) : r'.HasPolicy key policy := by
  obtain ⟨row, hrow, rfl⟩ := h
  exact ⟨f row, by rw [hget, hrow, Option.map_some], hf row⟩

theorem HasPolicy.call {policy : PolicyColumns} (h : r.HasPolicy key policy) {c : LifecycleCall}
    (hc : c.KeepsPolicy key) : (r.call c).HasPolicy key policy := by
  have hraise {m : Except LifecycleError Registry}
    (hm : ∀ r', m = .ok r' → r'.HasPolicy key policy) :
      HasPolicy (m.toOption.getD r) key policy := getD_toOption (P := (·.HasPolicy key policy)) h hm
  cases c with
  | transition k args =>
    refine hraise fun r' hr' => ?_
    obtain ⟨-, row, -, hpolicy, hget⟩ := transition_ok hr'
    obtain ⟨old, hold, rfl⟩ := h
    by_cases hkey : key = k
    · subst hkey
      exact ⟨row, by rw [hget, if_pos rfl], hpolicy old hold⟩
    · exact ⟨old, by rw [hget, if_neg hkey, hold], rfl⟩
  | transitionAll pipeline frm to' reset =>
    refine hraise fun r' hr' => h.map ((transitionAll_ok hr').2 key) fun row => ?_
    rw [moved]
    split_ifs <;> rfl
  | resetAll pipeline =>
    refine hraise fun r' hr' => ?_
    obtain ⟨r₁, hr₁, hget⟩ := get?_resetAll r pipeline
    obtain rfl := Except.ok.inj (hr₁.symm.trans hr')
    refine h.map (hget key) fun row => ?_
    rw [resetRow]
    split_ifs <;> rfl
  | forget k =>
    refine hraise fun r' hr' => ?_
    rcases forget_ok hr' with rfl | ⟨-, hget⟩
    · exact h
    · obtain ⟨old, hold, hpolicy⟩ := h
      exact ⟨old, by rw [hget, if_neg (Ne.symm hc), hold], hpolicy⟩
  | writePolicy k update inserted =>
    obtain ⟨old, hold, hpolicy⟩ := h
    refine ⟨old, ?_, hpolicy⟩
    rw [Registry.call, writePolicy]
    split
    · rw [Dict.get?_set, if_neg (Ne.symm hc), hold]
    · rw [Dict.get?_set, if_neg (Ne.symm hc), hold]

/-- **Configuration.** The policy of a table outlives every run of calls, replacement of its row and
reset included, as long as the table is not forgotten and nobody writes its policy. -/
theorem policy_run {policy : PolicyColumns} {calls : List LifecycleCall}
    (h : r.HasPolicy key policy) (hcalls : ∀ c ∈ calls, c.KeepsPolicy key) :
    (r.run calls).HasPolicy key policy := by
  induction calls generalizing r with
  | nil => exact h
  | cons c calls ih =>
    exact ih (h.call (hcalls c List.mem_cons_self))
      fun c' hc' => hcalls c' (List.mem_cons_of_mem c hc')

end Registry

namespace Accounts

/-- The table of users. -/
def users : RelationKey := ⟨"flight", "public", "users"⟩

/-- The users are registered. -/
def registered : Registry := Dict.set ∅ users
  { targetTable := "users", snapshotState := .complete, policy := { deleteMode := "soft" } }

/-- Their row is replaced, and then reset. -/
def replacedAndReset : List LifecycleCall :=
  [.transition users { to' := .awaitingSnapshot, replace := true }, .resetAll "flight"]

theorem policy_replacedAndReset : (registered.run replacedAndReset).HasPolicy users
    { deleteMode := "soft" } :=
  Registry.policy_run ⟨_, rfl, rfl⟩ fun c hc => by
    fin_cases hc <;> exact trivial

end Accounts

end CdcFlight
