import CdcFlight.Lib.Resumable
import CdcFlight.Lifecycle.Registry

/-!
# The recovery journal

`recovery`: a rebuild of every captured table is journalled together with the tables that owe a
snapshot, then the offsets file, the durable resume point and the old stream position are given up
one after the other, and the journal row stays until the rebuild is complete. A process may die
between any two durable effects; the next one resumes from the recorded phase before it does
anything else. A call that raises ends the process, which is a death like any other.

Of the files only their presence is kept, and a removal does remove. Alerts, the slot, and the
certificate of the logical messages, which can only make a call raise, are left out.

## Main definitions

* `CdcFlight.RecoveryWorld`: what is durable, with `begin`, `clear` and `completeIfReady`.
* `CdcFlight.RecoverySystem`, `CdcFlight.RecoverySystem.Step`: the processes on it.

## Main results

* `CdcFlight.RecoverySystem.file_before_row`: the resume point goes after the file.
* `CdcFlight.RecoverySystem.rebuilt_of_deleted`: the journal row stays until every captured table
  was rebuilt.
* `CdcFlight.RecoverySystem.resumed`: however often a recovery is cut off, it ends where it would
  have ended.
-/

namespace CdcFlight

open Lib

/-! ### The journal -/

/-- `recovery.PHASES`. -/
inductive JournalPhase
  | requested
  | offsetsFileDeleted
  | resumePointDeleted
  | armed
deriving DecidableEq

namespace JournalPhase

/-- The position in `PHASES`. -/
def index : JournalPhase → ℕ
  | requested => 0
  | offsetsFileDeleted => 1
  | resumePointDeleted => 2
  | armed => 3

/-- The phase that `resume` writes next. -/
def next : JournalPhase → JournalPhase
  | requested => offsetsFileDeleted
  | offsetsFileDeleted => resumePointDeleted
  | resumePointDeleted => armed
  | armed => armed

end JournalPhase

/-- `ACQUISITION_RECOVERY`; `none` is `absent`. -/
def acquisitionRecovery : Machine (Option JournalPhase) where
  states := [none, some .requested, some .offsetsFileDeleted, some .resumePointDeleted, some .armed]
  edges :=
    [(none, some .requested), (some .requested, some .offsetsFileDeleted),
      (some .offsetsFileDeleted, some .resumePointDeleted),
      (some .resumePointDeleted, some .armed), (some .requested, some .requested),
      (some .offsetsFileDeleted, some .requested), (some .resumePointDeleted, some .requested),
      (some .armed, some .requested), (some .armed, none)]
  terminal := [none]
  initialStates := [none]
  states_nodup := by decide
  edges_subset := by decide
  terminal_subset := by decide
  initial_nodup := List.nodup_singleton _
  initial_subset := by decide

/-- The decisions that a recovery is journalled for. -/
inductive RecoveryDecision
  | operatorReset
  | orphanOffsetsAccepted
  /-- A verdict of the slot check. -/
  | verdict (decision : String)
deriving DecidableEq

/-- `recovery.RecoveryRecord`. -/
structure RecoveryRecord where
  recoveryId : String
  decision : RecoveryDecision
  phase : JournalPhase
  /-- Whether `state_dir` is recorded. -/
  stateDir : Bool
  forgetCatalog : Bool
  tablesMarked : ℕ
  captured : List String
deriving DecidableEq

/-- What `resume` gives up. -/
structure ResumeFiles where
  /-- `offsets.dat`. -/
  offsetsFile : Bool
  /-- The other files of the state directory. -/
  sidecars : Bool
  /-- The row of `debezium_offsets`. -/
  resumeRow : Bool
deriving DecidableEq

/-- The offsets file without the resume point, which the next start refuses: it cannot tell a file
that ran ahead of the destination from one that belongs to it. -/
def ResumeFiles.Orphan (files : ResumeFiles) : Prop :=
  files.offsetsFile = true ∧ files.resumeRow = false

/-- What outlives a process. -/
structure RecoveryWorld where
  registry : Registry
  journal : Option RecoveryRecord
  files : ResumeFiles
  /-- Whether the source catalog is recorded. -/
  catalog : Bool

/-- The arguments of `begin`. -/
structure BeginArgs where
  recoveryId : String
  decision : RecoveryDecision
  captured : List (RelationKey × String)
  stateDir : Bool
  forgetCatalog : Bool

/-- What a call on the journal raises. -/
inductive RecoveryError
  | lifecycle (error : LifecycleError)
  | illegalTransition (illegal : IllegalTransition (Option JournalPhase))

/-- `destination.request_snapshot`, of one table. -/
def awaiting (target : String) : TransitionArgs where
  to' := .awaitingSnapshot
  targetTable := some target

/-- `destination.request_snapshot`. -/
def requestSnapshot (r : Registry) (tables : List (RelationKey × String)) :
    Except LifecycleError Registry :=
  tables.foldlM (fun r table => r.transition table.1 (awaiting table.2)) r

/-- The rows that `request_snapshot` has verified. -/
def marked (r : Registry) (tables : List (RelationKey × String)) : ℕ :=
  tables.countP fun table => r.stateAt table.1 = .awaitingSnapshot

namespace RecoveryWorld

/-- `_write_phase` and `clear` check the edge. -/
def check (frm to' : Option JournalPhase) : Except RecoveryError Unit :=
  (acquisitionRecovery.check frm to').mapError .illegalTransition

/-- The transaction of `begin`. -/
def begin (w : RecoveryWorld) (pipeline : String) (args : BeginArgs) :
    Except RecoveryError RecoveryWorld := do
  check (w.journal.map (·.phase)) (some .requested)
  let r ← (if args.decision = .operatorReset then w.registry.resetAll pipeline
    else .ok w.registry).mapError .lifecycle
  let r ← (requestSnapshot r args.captured).mapError .lifecycle
  return {
    registry := r
    journal := some {
      recoveryId := args.recoveryId
      decision := args.decision
      phase := .requested
      stateDir := args.stateDir
      forgetCatalog := args.forgetCatalog
      tablesMarked := marked r args.captured
      captured := args.captured.map (·.1.qualified) }
    files := w.files
    catalog := w.catalog && !args.forgetCatalog }

/-- The durable effect of `resume` at a phase. -/
def carryOut (stateDir : Bool) : JournalPhase → ResumeFiles → ResumeFiles
  | .requested, files =>
    { files with offsetsFile := false, sidecars := files.sidecars && !stateDir }
  | .offsetsFileDeleted, files => { files with resumeRow := false }
  | .resumePointDeleted, files => files
  | .armed, files => files

/-- `_write_phase`. -/
def writePhase (w : RecoveryWorld) (phase : JournalPhase) : RecoveryWorld :=
  { w with journal := w.journal.map fun record => { record with phase := phase } }

/-- One rung of `resume`. -/
def rung (w : RecoveryWorld × RecoveryRecord) (phase : JournalPhase) :
    RecoveryWorld × RecoveryRecord :=
  if w.2.phase = phase then
    ({ w.1 with files := carryOut w.2.stateDir phase w.1.files }.writePhase phase.next,
      { w.2 with phase := phase.next })
  else w

/-- `resume`, when nothing cuts it off. -/
def resume (w : RecoveryWorld) (record : RecoveryRecord) : RecoveryWorld :=
  ([JournalPhase.requested, .offsetsFileDeleted, .resumePointDeleted].foldl rung (w, record)).1

/-- `clear`. -/
def clear (w : RecoveryWorld) : Except RecoveryError RecoveryWorld :=
  match w.journal with
  | none => .ok w
  | some record => do
    check (some record.phase) none
    return { w with journal := none }

/-- `recovery.Completion`. -/
structure Completion where
  cleared : Bool
  stillOwed : List String
  hasResumePoint : Bool

/-- The captured set of the record, or every table that is known. -/
def obligation (record : RecoveryRecord) (states : Dict String Lifecycle) : List String :=
  if record.captured = [] then states.keys else record.captured

/-- `complete_if_ready`. -/
def completeIfReady (w : RecoveryWorld) (pipeline : String) (record : RecoveryRecord)
    (verifiedEmpty : List String) (retainedSlot : Bool) :
    Except RecoveryError (Completion × RecoveryWorld) := do
  let states ← (w.registry.readAll pipeline).mapError .lifecycle
  let owed := obligation record states
  let stillOwed := owed.filter fun name => states.get? name ≠ some .complete
  let emptyDischarged := owed ≠ [] ∧ owed ⊆ verifiedEmpty
  if stillOwed ≠ [] ∨ ¬ (w.files.resumeRow ∨ emptyDischarged ∨ retainedSlot) then
    return (⟨false, stillOwed, w.files.resumeRow⟩, w)
  else
    return (⟨true, [], w.files.resumeRow⟩, ← w.clear)

end RecoveryWorld

/-! ### Processes -/

/-- Where the process stands. -/
inductive RecoveryProcess
  | off
  /-- In `resume`, with its record; `carried` between the effect of a phase and its record. -/
  | resuming (record : RecoveryRecord) (carried : Bool)
  /-- Past `resume`, with the record that it completes, if any. -/
  | working (record : Option RecoveryRecord)

/-- The durable world and the process on it; a lease keeps other processes away. -/
structure RecoverySystem where
  world : RecoveryWorld
  process : RecoveryProcess

/-- What happens next. -/
inductive RecoveryStep
  /-- A process starts, and reads the journal. -/
  | start
  | begin (args : BeginArgs)
  /-- The effect of the phase, and its record. -/
  | carry
  | writePhase
  /-- The connector writes its file, the applier the resume point. -/
  | flush
  | commitPoint
  | lifecycle (c : LifecycleCall)
  | complete (verifiedEmpty : List String) (retainedSlot : Bool)
  /-- The process dies. -/
  | crash

namespace RecoveryProcess

/-- `acquisition.resume_any_journalled_recovery`. -/
def acquire : Option RecoveryRecord → RecoveryProcess
  | none => working none
  | some record => if record.phase = .armed then working (some record) else resuming record false

/-- `resume` after a phase was written. -/
def afterPhase (record : RecoveryRecord) : RecoveryProcess :=
  if record.phase = .armed then working (some record) else resuming record false

end RecoveryProcess

namespace RecoverySystem

/-- One step. `begin` replaces a record that is there, also one that an earlier process left half
done: a reset is journalled before `resume` looks at the journal. It is followed by `resume` when
the process acquires its stream; a stream that is already running goes on as it was. -/
inductive Step (pipeline : String) (s : RecoverySystem) : RecoveryStep → RecoverySystem → Prop
  | start (h : s.process = .off) :
    Step pipeline s .start { s with process := .acquire s.world.journal }
  | begin {args : BeginArgs} {w : RecoveryWorld} (h : s.process ≠ .off)
    (hw : s.world.begin pipeline args = .ok w) (process : RecoveryProcess)
    (hprocess : process = .acquire w.journal ∨
      ∃ record, s.process = .working record ∧ process = .working record) :
    Step pipeline s (.begin args) ⟨w, process⟩
  | carry {record : RecoveryRecord} (h : s.process = .resuming record false) :
    Step pipeline s .carry
      ⟨{ s.world with files := RecoveryWorld.carryOut record.stateDir record.phase s.world.files },
        .resuming record true⟩
  | writePhase {record : RecoveryRecord} (h : s.process = .resuming record true)
    (hedge : (some record.phase, some record.phase.next) ∈ acquisitionRecovery.edges) :
    Step pipeline s .writePhase
      ⟨s.world.writePhase record.phase.next, .afterPhase { record with phase := record.phase.next }⟩
  | flush {record : Option RecoveryRecord} (h : s.process = .working record) :
    Step pipeline s .flush
      { s with world := { s.world with
          files := { s.world.files with offsetsFile := true, sidecars := true } } }
  | commitPoint {record : Option RecoveryRecord} (h : s.process = .working record) :
    Step pipeline s .commitPoint
      { s with world := { s.world with files := { s.world.files with resumeRow := true } } }
  | lifecycle {record : Option RecoveryRecord} (h : s.process = .working record)
    (c : LifecycleCall) :
    Step pipeline s (.lifecycle c)
      { s with world := { s.world with registry := s.world.registry.call c } }
  | complete {record : RecoveryRecord} (h : s.process = .working (some record))
    {verifiedEmpty : List String} {retainedSlot : Bool} {completion : RecoveryWorld.Completion}
    {w : RecoveryWorld}
    (hw :
      s.world.completeIfReady pipeline record verifiedEmpty retainedSlot = .ok (completion, w)) :
    Step pipeline s (.complete verifiedEmpty retainedSlot)
      ⟨w, .working (if completion.cleared then none else some record)⟩
  | crash : Step pipeline s .crash { s with process := .off }

end RecoverySystem

/-- A step of `resume`, the death of a process or the start of the next one. -/
def RecoveryStep.Resumes : RecoveryStep → Prop
  | start | carry | writePhase | crash => True
  | _ => False

/-- Whether the process has carried out the stage that it is at. -/
def RecoveryProcess.carried : RecoveryProcess → Bool
  | resuming _ carried => carried
  | _ => false

@[simp] theorem RecoveryProcess.carried_acquire (journal : Option RecoveryRecord) :
    (acquire journal).carried = false := by
  cases journal with
  | none => rfl
  | some record =>
    rw [acquire]
    split_ifs <;> rfl

/-! ### What the calls do -/

section Calls

variable {r r' : Registry} {key : RelationKey} {tables : List (RelationKey × String)}

theorem stateAt_transition {args : TransitionArgs} (h : r.transition key args = .ok r')
    (j : RelationKey) : r'.stateAt j = if j = key then args.to' else r.stateAt j := by
  obtain ⟨-, row, hstate, -, hget⟩ := Registry.transition_ok h
  rw [Registry.stateAt, hget]
  split_ifs
  · rw [Option.elim_some, hstate]
  · rfl

/-- A table that was asked for awaits its snapshot, and no other table is touched. -/
theorem stateAt_requestSnapshot (h : requestSnapshot r tables = .ok r') (j : RelationKey) :
    r'.stateAt j = if j ∈ tables.map Prod.fst then .awaitingSnapshot else r.stateAt j := by
  induction tables generalizing r with
  | nil =>
    obtain rfl := Except.ok.inj h
    simp
  | cons table tables ih =>
    rw [requestSnapshot, List.foldlM_cons, except_bind_eq_ok] at h
    obtain ⟨r₁, h₁, h⟩ := h
    rw [ih h, stateAt_transition h₁]
    by_cases hj : j = table.1
    · simp [hj, awaiting]
    · simp only [List.map_cons, List.mem_cons, hj, false_or, if_false]

end Calls

theorem mapError_eq_ok {ε ε' α : Type} {m : Except ε α} {f : ε → ε'} {a : α} :
    m.mapError f = .ok a ↔ m = .ok a := by
  cases m <;> simp [Except.mapError]

namespace RecoveryWorld

variable {w w' : RecoveryWorld} {pipeline : String} {args : BeginArgs}

/-- The transaction of `begin` journals the captured tables, all of which then await a snapshot. -/
theorem begin_ok (h : w.begin pipeline args = .ok w') :
    (∃ record, w'.journal = some record ∧ record.phase = .requested ∧
      record.captured = args.captured.map (·.1.qualified)) ∧
    w'.files = w.files ∧
    ∀ table ∈ args.captured, w'.registry.stateAt table.1 = .awaitingSnapshot := by
  rw [begin, except_bind_eq_ok] at h
  obtain ⟨_, -, h⟩ := h
  rw [except_bind_eq_ok] at h
  obtain ⟨r₁, -, h⟩ := h
  rw [except_bind_eq_ok] at h
  obtain ⟨r₂, h₂, h⟩ := h
  obtain rfl := Except.ok.inj h
  refine ⟨⟨_, rfl, rfl, rfl⟩, rfl, fun table htable => ?_⟩
  rw [stateAt_requestSnapshot (mapError_eq_ok.1 h₂), if_pos (List.mem_map_of_mem htable)]

/-- The journal row is deleted from `armed` only. -/
theorem clear_ok (h : w.clear = .ok w') : w' = { w with journal := none } ∧
    ∀ record, w.journal = some record → record.phase = .armed := by
  rw [clear] at h
  split at h
  · rename_i hnone
    obtain rfl := Except.ok.inj h
    refine ⟨by rw [← hnone], fun record hrecord => ?_⟩
    cases hnone.symm.trans hrecord
  · rename_i record hrecord
    rw [except_bind_eq_ok] at h
    obtain ⟨_, hcheck, h⟩ := h
    obtain rfl := Except.ok.inj h
    refine ⟨rfl, fun record' hrecord' => ?_⟩
    obtain rfl := Option.some.inj (hrecord.symm.trans hrecord')
    rw [check, mapError_eq_ok, Machine.check_eq_ok_iff] at hcheck
    have hall : ∀ e ∈ acquisitionRecovery.edges, e.2 = none → e.1 = some .armed := by decide
    exact Option.some.inj (hall _ hcheck rfl)

/-- The journal row stays as it is, or it is deleted when every table of the obligation is
`complete`. -/
theorem completeIfReady_ok {record : RecoveryRecord} {verifiedEmpty : List String}
    {retainedSlot : Bool} {completion : Completion}
    (h : w.completeIfReady pipeline record verifiedEmpty retainedSlot = .ok (completion, w')) :
    (completion.cleared = false ∧ w' = w) ∨
      completion.cleared = true ∧ w' = { w with journal := none } ∧
        (∀ record, w.journal = some record → record.phase = .armed) ∧
        ∃ states, w.registry.readAll pipeline = .ok states ∧
          ∀ name ∈ obligation record states, states.get? name = some .complete := by
  rw [completeIfReady, except_bind_eq_ok] at h
  obtain ⟨states, hstates, h⟩ := h
  dsimp only at h
  split_ifs at h with howed
  · obtain ⟨rfl, rfl⟩ := Prod.mk.inj (Except.ok.inj h)
    exact .inl ⟨rfl, rfl⟩
  · rw [except_bind_eq_ok] at h
    obtain ⟨w₁, hclear, h⟩ := h
    obtain ⟨rfl, rfl⟩ := Prod.mk.inj (Except.ok.inj h)
    obtain ⟨hw, harmed⟩ := clear_ok hclear
    refine .inr ⟨rfl, hw, harmed, states, mapError_eq_ok.1 hstates, fun name hname => ?_⟩
    have hnil := not_not.1 (not_or.1 howed).1
    by_contra hne
    have hmem : name ∈ (obligation record states).filter
        fun name => states.get? name ≠ some .complete :=
      List.mem_filter.2 ⟨hname, decide_eq_true hne⟩
    rw [hnil] at hmem
    cases hmem

theorem carryOut_carryOut (stateDir : Bool) (phase : JournalPhase) (files : ResumeFiles) :
    carryOut stateDir phase (carryOut stateDir phase files) = carryOut stateDir phase files := by
  cases phase <;> simp [carryOut]

/-- The effects of `resume`. -/
def stages (stateDir : Bool) : List (ResumeFiles → ResumeFiles) :=
  [JournalPhase.requested, .offsetsFileDeleted, .resumePointDeleted].map (carryOut stateDir)

theorem carryOut_idem {stateDir : Bool} {f : ResumeFiles → ResumeFiles} (hf : f ∈ stages stateDir)
    (files : ResumeFiles) : f (f files) = f files := by
  obtain ⟨phase, -, rfl⟩ := List.mem_map.1 hf
  exact carryOut_carryOut stateDir phase files

theorem stages_getElem? (stateDir : Bool) {phase : JournalPhase} (h : phase ≠ .armed) :
    (stages stateDir)[phase.index]? = some (carryOut stateDir phase) := by
  cases phase with
  | armed => exact absurd rfl h
  | _ => rfl

theorem index_next {phase : JournalPhase} (h : phase ≠ .armed) :
    phase.next.index = phase.index + 1 := by
  cases phase with
  | armed => exact absurd rfl h
  | _ => rfl

/-- `resume` carries out the rest of its stages and arms the journal. -/
theorem resume_eq {record : RecoveryRecord} (h : w.journal = some record) :
    w.resume record = { w with
      journal := some { record with phase := .armed }
      files := Progress.finishFrom (stages record.stateDir) record.phase.index w.files } := by
  obtain ⟨registry, journal, files, catalog⟩ := w
  obtain ⟨id, decision, phase, stateDir, forgetCatalog, tablesMarked, captured⟩ := record
  obtain rfl : journal = _ := h
  cases phase <;>
    simp [resume, rung, writePhase, stages, Progress.finishFrom, JournalPhase.index,
      JournalPhase.next, carryOut]

end RecoveryWorld

namespace RecoverySystem

variable {pipeline : String} {s t : RecoverySystem} {a : RecoveryStep}

/-! ### The process and the journal -/

/-- The process knows where the journal stands. -/
structure Aligned (s : RecoverySystem) : Prop where
  resuming : ∀ record carried, s.process = .resuming record carried →
    s.world.journal = some record ∧ record.phase ≠ .armed ∧
      (carried = true →
        RecoveryWorld.carryOut record.stateDir record.phase s.world.files = s.world.files)
  working : ∀ record journal, s.process = .working record → s.world.journal = some journal →
    journal.phase = .requested ∨ journal.phase = .armed ∧ record = some journal

theorem Aligned.of_off (h : s.process = .off) : s.Aligned where
  resuming record carried hs := by cases h.symm.trans hs
  working record journal hs := by cases h.symm.trans hs

/-- A process that has just read the journal. -/
theorem Aligned.acquire {w : RecoveryWorld} : Aligned ⟨w, .acquire w.journal⟩ where
  resuming record carried hs := by
    dsimp only at hs ⊢
    cases hjournal : w.journal with
    | none => rw [hjournal] at hs; cases hs
    | some journal =>
      rw [hjournal, RecoveryProcess.acquire] at hs
      split_ifs at hs with harmed
      cases hs
      exact ⟨rfl, harmed, fun h => by cases h⟩
  working record journal hs hjournal := by
    dsimp only at hs hjournal
    rw [hjournal, RecoveryProcess.acquire] at hs
    split_ifs at hs with harmed
    cases hs
    exact .inr ⟨harmed, rfl⟩

/-- A process past `resume` that leaves the journal alone. -/
theorem Aligned.of_working {record : Option RecoveryRecord} (h : s.Aligned)
    (hs : s.process = .working record) (ht : t.process = .working record)
    (hjournal : t.world.journal = s.world.journal) : t.Aligned where
  resuming record carried ht' := by cases ht.symm.trans ht'
  working record' journal ht' hjournal' := by
    cases ht.symm.trans ht'
    exact h.working record journal hs (hjournal ▸ hjournal')

/-- **Step.** -/
theorem Aligned.step (h : s.Aligned) (ha : Step pipeline s a t) : t.Aligned := by
  cases ha with
  | start => exact .acquire
  | begin hs hw process hprocess =>
    obtain ⟨⟨record, hjournal, hphase, -⟩, -, -⟩ := RecoveryWorld.begin_ok hw
    rcases hprocess with rfl | ⟨_, -, rfl⟩
    · exact .acquire
    · refine ⟨fun _ _ ht => (by cases ht), fun _ journal _ ht => .inl ?_⟩
      rw [← Option.some.inj (hjournal.symm.trans ht), hphase]
  | @carry record hs =>
    obtain ⟨hjournal, harmed, -⟩ := h.resuming _ _ hs
    refine ⟨fun record' carried ht => ?_, fun _ _ ht => (by cases ht)⟩
    cases ht
    exact ⟨hjournal, harmed, fun _ => RecoveryWorld.carryOut_carryOut _ _ _⟩
  | @writePhase record hs =>
    obtain ⟨hjournal, -, -⟩ := h.resuming _ _ hs
    have hnext : (s.world.writePhase record.phase.next).journal =
        some { record with phase := record.phase.next } := by
      rw [RecoveryWorld.writePhase, hjournal, Option.map_some]
    have hacquire := Aligned.acquire (w := s.world.writePhase record.phase.next)
    rwa [hnext] at hacquire
  | flush hs => exact h.of_working hs hs rfl
  | commitPoint hs => exact h.of_working hs hs rfl
  | lifecycle hs c => exact h.of_working hs hs rfl
  | complete hs hw =>
    rcases RecoveryWorld.completeIfReady_ok hw with ⟨hcleared, rfl⟩ | ⟨hcleared, rfl, -, -⟩
    · exact h.of_working hs (by rw [hcleared]; rfl) rfl
    · refine ⟨fun _ _ ht => ?_, fun _ _ _ ht => (by cases ht)⟩
      rw [hcleared] at ht
      cases ht
  | crash => exact .of_off rfl

/-- **Run.** -/
theorem Aligned.trace {l : List RecoveryStep} (h : s.Aligned) (hl : Trace (Step pipeline) s l t) :
    t.Aligned :=
  hl.invariant (fun _ _ _ hs ha => hs.step ha) h

/-! ### The order of the effects -/

/-- Once it is recorded that the offsets file was deleted, it stays away while `resume` runs. -/
structure Ordered (s : RecoverySystem) : Prop where
  deleted : ∀ record, s.world.journal = some record →
    record.phase = .offsetsFileDeleted ∨ record.phase = .resumePointDeleted →
      s.world.files.offsetsFile = false

theorem Ordered.of_eq (h : s.Ordered) (hjournal : t.world.journal = s.world.journal)
    (hfiles : t.world.files = s.world.files) : t.Ordered := by
  refine ⟨fun record hrecord hphase => ?_⟩
  rw [hfiles]
  exact h.deleted record (hjournal ▸ hrecord) hphase

/-- A process past `resume` may bring the file back. -/
theorem Ordered.of_working {record : Option RecoveryRecord} (h : s.Aligned)
    (hs : s.process = .working record) (hjournal : t.world.journal = s.world.journal) :
    t.Ordered := by
  refine ⟨fun journal hrecord hphase => ?_⟩
  rcases h.working record journal hs (hjournal ▸ hrecord) with hrequested | ⟨harmed, -⟩
  · rw [hrequested] at hphase
    rcases hphase with hphase | hphase <;> cases hphase
  · rw [harmed] at hphase
    rcases hphase with hphase | hphase <;> cases hphase

/-- **Step.** -/
theorem Ordered.step (h : s.Ordered) (hs : s.Aligned) (ha : Step pipeline s a t) : t.Ordered := by
  cases ha with
  | start => exact h.of_eq rfl rfl
  | begin _ hw process _ =>
    obtain ⟨⟨record, hjournal, hphase, -⟩, -, -⟩ := RecoveryWorld.begin_ok hw
    refine ⟨fun record' hrecord' hphase' => ?_⟩
    rw [← Option.some.inj (hjournal.symm.trans hrecord'), hphase] at hphase'
    rcases hphase' with hphase' | hphase' <;> cases hphase'
  | @carry record hprocess =>
    obtain ⟨hjournal, -, -⟩ := hs.resuming _ _ hprocess
    refine ⟨fun record' hrecord' hphase => ?_⟩
    have hfile := h.deleted record' hrecord' hphase
    obtain rfl := Option.some.inj (hjournal.symm.trans hrecord')
    rcases hphase with hphase | hphase <;> simpa [hphase, RecoveryWorld.carryOut] using hfile
  | @writePhase record hprocess =>
    obtain ⟨hjournal, -, hcarried⟩ := hs.resuming _ _ hprocess
    refine ⟨fun record' hrecord' hphase => ?_⟩
    have hnext : record'.phase = record.phase.next := by
      rw [RecoveryWorld.writePhase, hjournal] at hrecord'
      exact (congrArg RecoveryRecord.phase (Option.some.inj hrecord')).symm
    rw [hnext] at hphase
    change s.world.files.offsetsFile = false
    cases hat : record.phase with
    | requested =>
      rw [← hcarried rfl, hat, RecoveryWorld.carryOut]
    | offsetsFileDeleted => exact h.deleted record hjournal (.inl hat)
    | resumePointDeleted =>
      rw [hat] at hphase
      rcases hphase with hphase | hphase <;> cases hphase
    | armed =>
      rw [hat] at hphase
      rcases hphase with hphase | hphase <;> cases hphase
  | flush hprocess => exact .of_working hs hprocess rfl
  | commitPoint hprocess => exact .of_working hs hprocess rfl
  | lifecycle _ c => exact h.of_eq rfl rfl
  | complete _ hw =>
    rcases RecoveryWorld.completeIfReady_ok hw with ⟨-, rfl⟩ | ⟨-, rfl, -, -⟩
    · exact h.of_eq rfl rfl
    · exact ⟨fun _ hrecord => by cases hrecord⟩
  | crash => exact h.of_eq rfl rfl

/-- **The file before the row.** Wherever a recovery is cut off, it does not leave the offsets file
without the resume point: a step after which they stand so is a flush of the connector, or they
stood so before. -/
theorem file_before_row {l : List RecoveryStep} {u : RecoverySystem} (hoff : s.process = .off)
    (hjournal : s.world.journal = none) (hl : Trace (Step pipeline) s l t)
    (ha : Step pipeline t a u) :
    u.Ordered ∧ (u.world.files.Orphan → t.world.files.Orphan ∨ a = .flush) := by
  have hstart : s.Aligned ∧ s.Ordered := ⟨.of_off hoff, ⟨fun record hrecord => by
    cases hjournal.symm.trans hrecord⟩⟩
  obtain ⟨haligned, hordered⟩ := hl.invariant (P := fun s => s.Aligned ∧ s.Ordered)
    (fun _ _ _ h hstep => ⟨h.1.step hstep, h.2.step h.1 hstep⟩) hstart
  refine ⟨hordered.step haligned ha, fun horphan => ?_⟩
  cases ha with
  | begin _ hw process _ =>
    obtain ⟨-, hfiles, -⟩ := RecoveryWorld.begin_ok hw
    exact .inl (hfiles ▸ horphan)
  | @carry record hprocess =>
    obtain ⟨hrecord, -, -⟩ := haligned.resuming _ _ hprocess
    refine .inl ?_
    cases hphase : record.phase with
    | requested =>
      rw [hphase] at horphan
      cases horphan.1
    | offsetsFileDeleted =>
      rw [hphase] at horphan
      cases (hordered.deleted record hrecord (.inl hphase)).symm.trans horphan.1
    | resumePointDeleted =>
      rw [hphase] at horphan
      exact horphan
    | armed =>
      rw [hphase] at horphan
      exact horphan
  | flush => exact .inr rfl
  | commitPoint => cases horphan.2
  | complete _ hw =>
    rcases RecoveryWorld.completeIfReady_ok hw with ⟨-, rfl⟩ | ⟨-, rfl, -, -⟩
    · exact .inl horphan
    · exact .inl horphan
  | _ => exact .inl horphan

/-! ### What a recovery owes -/

/-- The registry is written by the lifecycle and by `begin` only. -/
theorem registry_step (ha : Step pipeline s a t) (hbegin : ∀ args, a ≠ .begin args) :
    t.world.registry = s.world.registry ∨
      ∃ c, a = .lifecycle c ∧ t.world.registry = s.world.registry.call c := by
  cases ha with
  | begin => exact absurd rfl (hbegin _)
  | lifecycle _ c => exact .inr ⟨c, rfl, rfl⟩
  | complete _ hw =>
    rcases RecoveryWorld.completeIfReady_ok hw with ⟨-, rfl⟩ | ⟨-, rfl, -, -⟩
    · exact .inl rfl
    · exact .inl rfl
  | _ => exact .inl rfl

/-- The journal, if there is one, names the tables. -/
def Names (captured : List String) (s : RecoverySystem) : Prop :=
  ∀ record, s.world.journal = some record → record.captured = captured

theorem Names.step {captured : List String} (h : s.Names captured) (ha : Step pipeline s a t)
    (hbegin : ∀ args, a ≠ .begin args) : t.Names captured := by
  cases ha with
  | begin => exact absurd rfl (hbegin _)
  | writePhase =>
    intro record hrecord
    obtain ⟨old, hold, rfl⟩ := Option.map_eq_some_iff.1 hrecord
    exact h old hold
  | complete _ hw =>
    rcases RecoveryWorld.completeIfReady_ok hw with ⟨-, rfl⟩ | ⟨-, rfl, -, -⟩
    · exact h
    · exact fun record hrecord => by cases hrecord
  | _ => exact h

/-- A run without another `begin` keeps what the journal names. -/
theorem Names.trace {captured : List String} {l : List RecoveryStep} (h : s.Names captured)
    (hl : Trace (Step pipeline) s l t) (hbegin : ∀ args, .begin args ∉ l) : t.Names captured :=
  hl.invariant_of_mem (Q := fun a => ∀ args, a ≠ .begin args)
    (fun _ _ _ hs hother ha => hs.step ha hother)
    (fun _ ha args heq => hbegin args (heq ▸ ha)) h

/-- The journal row is deleted when every table that it names is `complete`. -/
theorem complete_of_deleted {captured : List String} (haligned : s.Aligned)
    (hnames : s.Names captured) (hcaptured : captured ≠ []) (ha : Step pipeline s a t)
    (hsome : s.world.journal ≠ none) (hnone : t.world.journal = none) {key : RelationKey}
    (hkey : key.pipeline = pipeline) (hplain : key.Plain) (hmem : key.qualified ∈ captured) :
    s.world.registry.stateAt key = .complete := by
  cases ha with
  | begin _ hw process _ =>
    obtain ⟨⟨record, hjournal, -⟩, -, -⟩ := RecoveryWorld.begin_ok hw
    cases hjournal.symm.trans hnone
  | writePhase => exact absurd (Option.map_eq_none_iff.1 hnone) hsome
  | @complete record hprocess _ _ _ _ hw =>
    rcases RecoveryWorld.completeIfReady_ok hw with ⟨-, rfl⟩ | ⟨-, rfl, harmed, states, hread, hall⟩
    · exact absurd hnone hsome
    · obtain ⟨journal, hjournal⟩ := Option.ne_none_iff_exists'.1 hsome
      rcases haligned.working _ journal hprocess hjournal with hphase | ⟨-, hrecord⟩
      · cases hphase.symm.trans (harmed journal hjournal)
      · obtain rfl := Option.some.inj hrecord
        have howed : key.qualified ∈ RecoveryWorld.obligation record states := by
          rw [RecoveryWorld.obligation, hnames _ hjournal, if_neg hcaptured]
          exact hmem
        obtain ⟨j, hpipeline, hname, hstate⟩ := Registry.get?_readAll hread (hall _ howed)
        rwa [← hplain.eq (hpipeline.trans hkey.symm) hname]
  | _ => exact absurd hnone hsome

/-- **What a recovery owes.** From a `begin` up to the first step after which its journal row is
gone, every table that was captured was taken from owing a snapshot to `complete`. -/
theorem rebuilt_of_deleted {args : BeginArgs} {l₀ l : List RecoveryStep} {s₀ u v : RecoverySystem}
    (hoff : s₀.process = .off) (hl₀ : Trace (Step pipeline) s₀ l₀ s)
    (hbegin : Step pipeline s (.begin args) t) (hl : Trace (Step pipeline) t l u)
    (hother : ∀ args, .begin args ∉ l) (ha : Step pipeline u a v)
    (hsome : u.world.journal ≠ none) (hnone : v.world.journal = none)
    {table : RelationKey × String} (htable : table ∈ args.captured)
    (hkey : table.1.pipeline = pipeline) (hplain : table.1.Plain) :
    ∃ before c after u₁ u₂, l = before ++ .lifecycle c :: after ∧
      Trace (Step pipeline) t before u₁ ∧ u₁.world.registry.stateAt table.1 ∈ owingWork ∧
      Step pipeline u₁ (.lifecycle c) u₂ ∧ u₂.world.registry.stateAt table.1 = .complete ∧
      Trace (Step pipeline) u₂ after u := by
  have haligned : t.Aligned := ((Aligned.of_off hoff).trace hl₀).step hbegin
  have hstart : t.Names (args.captured.map (·.1.qualified)) ∧
      t.world.registry.stateAt table.1 = .awaitingSnapshot := by
    cases hbegin with
    | begin _ hw process _ =>
      obtain ⟨⟨record, hjournal, -, hcaptured⟩, -, hawaiting⟩ := RecoveryWorld.begin_ok hw
      exact ⟨fun record' hrecord' => Option.some.inj (hjournal.symm.trans hrecord') ▸ hcaptured,
        hawaiting table htable⟩
  have hmem : table.1.qualified ∈ args.captured.map (·.1.qualified) :=
    List.mem_map_of_mem htable
  have hend := complete_of_deleted (haligned.trace hl) (hstart.1.trace hl hother)
    (List.ne_nil_of_mem hmem) ha hsome hnone hkey hplain hmem
  obtain ⟨before, b, after, u₁, u₂, rfl, hbefore, hb, hafter, hu₁, hu₂⟩ :=
    hl.crossing (P := fun s => s.world.registry.stateAt table.1 = .complete)
      (by rw [hstart.2]; simp) hend
  rcases registry_step hb fun args heq => hother args (by simp [heq]) with heq | ⟨c, rfl, hcall⟩
  · exact absurd (heq ▸ hu₂) hu₁
  · refine ⟨before, c, after, u₁, u₂, rfl, hbefore, ?_, hb, hu₂, hafter⟩
    rw [hcall] at hu₂
    rcases Registry.declared_call (r := u₁.world.registry) c table.1 with heq | hedge
    · exact absurd (heq.trans hu₂) hu₁
    · rw [hu₂] at hedge
      exact (owing_of_complete hedge).resolve_left hu₁

/-! ### Attempts -/

/-- How far a recovery got. -/
def progress (s : RecoverySystem) (phase : JournalPhase) : Progress ResumeFiles where
  position := phase.index
  carried := s.process.carried
  state := s.world.files

/-- The recovery of `w` is under way: it leads where `resume` leads. -/
structure Underway (w : RecoveryWorld) (record : RecoveryRecord) (s : RecoverySystem) : Prop where
  aligned : s.Aligned
  world : ∃ phase, s.world =
      { w with journal := some { record with phase := phase }, files := s.world.files } ∧
    Progress.finish (RecoveryWorld.stages record.stateDir) (s.progress phase) =
      Progress.finishFrom (RecoveryWorld.stages record.stateDir) record.phase.index w.files

/-- The files are where the recorded phase and the process say. -/
theorem settled_progress {record : RecoveryRecord} (h : s.Aligned)
    (hjournal : s.world.journal = some record) :
    Progress.Settled (RecoveryWorld.stages record.stateDir) (s.progress record.phase) := by
  intro hcarried f hf
  cases hprocess : s.process with
  | resuming record' carried =>
    obtain ⟨hrecord, harmed, hfiles⟩ := h.resuming _ _ hprocess
    obtain rfl := Option.some.inj (hjournal.symm.trans hrecord)
    obtain rfl := Option.some.inj
      ((RecoveryWorld.stages_getElem? record.stateDir harmed).symm.trans hf)
    rw [progress, hprocess] at hcarried
    exact hfiles hcarried
  | _ =>
    rw [progress, hprocess] at hcarried
    cases hcarried

/-- **Step.** -/
theorem Underway.step {w : RecoveryWorld} {record : RecoveryRecord} (h : s.Underway w record)
    (ha : Step pipeline s a t) (hresumes : a.Resumes) : t.Underway w record := by
  obtain ⟨phase, hworld, hfinish⟩ := h.world
  have hjournal : s.world.journal = some { record with phase := phase } := by rw [hworld]
  have hsettled := settled_progress h.aligned hjournal
  refine ⟨h.aligned.step ha, ?_⟩
  cases ha with
  | start hoff =>
    refine ⟨phase, hworld, ?_⟩
    rw [← hfinish, progress, progress, hoff, RecoveryProcess.carried_acquire]
    rfl
  | @carry record' hprocess =>
    obtain ⟨hrecord', harmed, -⟩ := h.aligned.resuming _ _ hprocess
    obtain rfl := Option.some.inj (hjournal.symm.trans hrecord')
    refine ⟨phase, by rw [hworld], ?_⟩
    have hstep := Progress.Step.carry (s := s.world.files)
      (RecoveryWorld.stages_getElem? record.stateDir harmed)
    rw [progress, hprocess] at hsettled hfinish
    rw [← hfinish]
    exact Progress.finish_eq (fun f hf => RecoveryWorld.carryOut_idem hf) hsettled hstep
  | @writePhase record' hprocess =>
    obtain ⟨hrecord', harmed, -⟩ := h.aligned.resuming _ _ hprocess
    obtain rfl := Option.some.inj (hjournal.symm.trans hrecord')
    refine ⟨phase.next, ?_, ?_⟩
    · rw [RecoveryWorld.writePhase, hworld]
      rfl
    · have hi := (List.getElem?_eq_some_iff.1
        (RecoveryWorld.stages_getElem? record.stateDir harmed)).1
      have hstep : Progress.Step (RecoveryWorld.stages record.stateDir)
          ⟨phase.index, true, s.world.files⟩ ⟨phase.index + 1, false, s.world.files⟩ := .record hi
      rw [progress, hprocess] at hsettled hfinish
      have hend := Progress.finish_eq (fun f hf => RecoveryWorld.carryOut_idem hf) hsettled hstep
      rw [← RecoveryWorld.index_next harmed] at hend
      rw [← hfinish]
      refine Eq.trans ?_ hend
      rw [progress]
      congr 2
      rw [RecoveryProcess.afterPhase]
      split_ifs <;> rfl
  | crash =>
    refine ⟨phase, hworld, ?_⟩
    rw [← hfinish]
    exact Progress.finish_eq (fun f hf => RecoveryWorld.carryOut_idem hf) hsettled (.cut _)
  | _ => cases hresumes

/-- **Run.** -/
theorem Underway.trace {w : RecoveryWorld} {record : RecoveryRecord} {l : List RecoveryStep}
    (h : s.Underway w record) (hl : Trace (Step pipeline) s l t) (hresumes : ∀ a ∈ l, a.Resumes) :
    t.Underway w record :=
  hl.invariant_of_mem (fun _ _ _ hs hresumes ha => hs.step ha hresumes) hresumes h

/-- **However often a recovery is cut off**, in whatever phase it was found and wherever its
attempts die, once it is armed the world is what one attempt would have made of it. -/
theorem resumed {record armed : RecoveryRecord} {l : List RecoveryStep} (hoff : s.process = .off)
    (hrecord : s.world.journal = some record) (hl : Trace (Step pipeline) s l t)
    (hresumes : ∀ a ∈ l, a.Resumes) (harmed : t.world.journal = some armed)
    (hphase : armed.phase = .armed) : t.world = s.world.resume record := by
  have hstart : s.Underway s.world record :=
    ⟨.of_off hoff, record.phase, by rw [← hrecord], rfl⟩
  obtain ⟨phase, hworld, hfinish⟩ := (hstart.trace hl hresumes).world
  have hjournal : t.world.journal = some { record with phase := phase } := by rw [hworld]
  obtain rfl := Option.some.inj (harmed.symm.trans hjournal)
  obtain rfl : phase = .armed := hphase
  rw [
    Progress.finish_of_le (by simp [progress, RecoveryWorld.stages, JournalPhase.index])] at hfinish
  rw [RecoveryWorld.resume_eq hrecord, hworld, ← hfinish]
  rfl

end RecoverySystem

namespace Accounts

/-- An operator asks for a new image of the users. -/
def reset : BeginArgs where
  recoveryId := "r1"
  decision := .operatorReset
  captured := [(users, "users")]
  stateDir := true
  forgetCatalog := false

/-- The journal of it. -/
def resetRecord (phase : JournalPhase) : RecoveryRecord where
  recoveryId := "r1"
  decision := .operatorReset
  phase := phase
  stateDir := true
  forgetCatalog := false
  tablesMarked := 1
  captured := ["public.users"]

/-- The users await a snapshot. -/
def owing : Registry := ((registered.resetAll "flight").bind
  (requestSnapshot · [(users, "users")])).toOption.getD registered

/-- The registry, the journal and the files of a flight. -/
def flight (registry : Registry) (journal : Option RecoveryRecord) (file row : Bool) :
    RecoveryWorld where
  registry := registry
  journal := journal
  files := ⟨file, file, row⟩
  catalog := true

/-- The users have a new image. -/
def rebuilt : Registry := (owing.call (.transition users { to' := .inProgress })).call
  (.transition users { to' := .complete })

open RecoverySystem

theorem step_begin : Step "flight" ⟨flight registered none true true, .working none⟩ (.begin reset)
    ⟨flight owing (some (resetRecord .requested)) true true,
      .resuming (resetRecord .requested) false⟩ :=
  .begin (by simp) rfl _ (.inl rfl)

/-- A process starts on a flight that streams. -/
theorem trace_start : Trace (Step "flight") ⟨flight registered none true true, .off⟩ [.start]
    ⟨flight registered none true true, .working none⟩ :=
  .cons (.start rfl) (.nil _)

theorem file_before_reset : (⟨flight owing (some (resetRecord .requested)) false true,
    .resuming (resetRecord .requested) true⟩ : RecoverySystem).Ordered :=
  (file_before_row rfl rfl (trace_start.append (.cons step_begin (.nil _))) (.carry rfl)).1

/-- What the process does next. -/
def work : List RecoveryStep :=
  [.carry, .writePhase, .carry, .writePhase, .carry, .writePhase,
    .lifecycle (.transition users { to' := .inProgress }),
    .lifecycle (.transition users { to' := .complete }), .commitPoint]

theorem trace_work : Trace (Step "flight")
    ⟨flight owing (some (resetRecord .requested)) true true,
      .resuming (resetRecord .requested) false⟩ work
    ⟨flight rebuilt (some (resetRecord .armed)) false true,
      .working (some (resetRecord .armed))⟩ :=
  .cons (.carry rfl) <| .cons (.writePhase rfl (by decide)) <| .cons (.carry rfl) <|
    .cons (.writePhase rfl (by decide)) <| .cons (.carry rfl) <|
    .cons (.writePhase rfl (by decide)) <| .cons (.lifecycle rfl _) <| .cons (.lifecycle rfl _) <|
    .cons (.commitPoint rfl) <| .nil _

theorem step_complete : Step "flight"
    ⟨flight rebuilt (some (resetRecord .armed)) false true, .working (some (resetRecord .armed))⟩
    (.complete [] false) ⟨flight rebuilt none false true, .working none⟩ :=
  .complete rfl (show RecoveryWorld.completeIfReady _ _ _ _ _ = .ok (⟨true, [], true⟩, _) from rfl)

theorem plain_users : users.Plain := ⟨by decide, by decide⟩

theorem rebuilt_reset : ∃ before c after u₁ u₂, work = before ++ .lifecycle c :: after ∧
    Trace (Step "flight") ⟨flight owing (some (resetRecord .requested)) true true,
      .resuming (resetRecord .requested) false⟩ before u₁ ∧
    u₁.world.registry.stateAt users ∈ owingWork ∧ Step "flight" u₁ (.lifecycle c) u₂ ∧
    u₂.world.registry.stateAt users = .complete ∧
    Trace (Step "flight") u₂ after ⟨flight rebuilt (some (resetRecord .armed)) false true,
      .working (some (resetRecord .armed))⟩ :=
  rebuilt_of_deleted rfl trace_start step_begin trace_work (by simp [work]) step_complete
    (Option.some_ne_none _) rfl (List.mem_singleton_self _) rfl plain_users

/-- Two attempts that are cut off, and one that is not. -/
def attempts : List RecoveryStep :=
  [.start, .carry, .crash, .start, .carry, .writePhase, .carry, .crash, .start, .carry, .writePhase,
    .carry, .writePhase]

theorem resume_reset : Trace (Step "flight")
    ⟨flight owing (some (resetRecord .requested)) true true, .off⟩ attempts
    ⟨flight owing (some (resetRecord .armed)) false false, .working (some (resetRecord .armed))⟩ :=
  .cons (.start rfl) <| .cons (.carry rfl) <| .cons .crash <|
    .cons (.start rfl) <| .cons (.carry rfl) <|
    .cons (.writePhase rfl (by decide)) <|
    .cons (.carry rfl) <| .cons .crash <|
    .cons (.start rfl) <| .cons (.carry rfl) <|
    .cons (.writePhase rfl (by decide)) <|
    .cons (.carry rfl) <|
    .cons (.writePhase rfl (by decide)) <| .nil _

theorem resumed_reset : flight owing (some (resetRecord .armed)) false false =
    (flight owing (some (resetRecord .requested)) true true).resume (resetRecord .requested) :=
  resumed rfl rfl resume_reset (fun a ha => by fin_cases ha <;> exact trivial) rfl rfl

end Accounts

end CdcFlight
