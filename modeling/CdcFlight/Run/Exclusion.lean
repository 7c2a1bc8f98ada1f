import CdcFlight.Lib.Lock
import CdcFlight.Lib.Run

/-!
# Telemetry beside the commit

`run_state._CommitAckWindow` and the sink of `run_state.RunPhaseWriter`. The applier opens a window
before `COMMIT` and leaves it after the acknowledgement. The thread of the run hands each phase
write and each operator log to a worker thread and stops waiting for it after a while, so that any
number of workers may be alive; at the end it retires the sink. The threads are interleaved in any
way, and a wait with a bound may end at any time.

A statement of a worker takes time: it begins and ends. What it writes is left out, and so are the
counters of abandoned writes.

## Main definitions

* `CdcFlight.WorkerAt`, `CdcFlight.ApplierAt`, `CdcFlight.CallerAt`: where the threads stand.
* `CdcFlight.Process`, `CdcFlight.Process.Enabled`, `CdcFlight.Process.next`: their steps.
* `CdcFlight.Process.Sound`: what holds whatever the order of the steps.
* `CdcFlight.Process.FreesWithin`: how far a thread is from giving the gate back.

## Main results

* `CdcFlight.Process.outside_of_executing`: no statement but a terminal one runs in the window.
* `CdcFlight.Process.sink_of_executing`: one statement at a time, on a sink nobody closes.
* `CdcFlight.Process.gate_freed`: who holds the gate gives it back by its own steps.
-/

namespace CdcFlight

open Lib

/-! ### Threads -/

/-- Where a worker of `_execute_bounded` stands. -/
inductive WorkerAt
  | unborn
  /-- The owner of the sink, before `worker.start()`. -/
  | registered
  /-- In `excluded`, before it has the gate. -/
  | waiting
  /-- With the gate, before it reads `_active`. -/
  | holding
  /-- In the body of `excluded`, with what that yielded; `gated` unless the wait ran out. -/
  | admitted (gated insideWindow : Bool)
  /-- A statement runs on the sink. -/
  | executing (gated insideWindow : Bool)
  /-- After `excluded`, before the `finally` block. -/
  | left
  /-- The worker has taken the sink and is to close it. -/
  | closing
  | finished
deriving DecidableEq

namespace WorkerAt

/-- A worker with the gate. -/
def gated : WorkerAt → Bool
  | holding => true
  | admitted gated _ => gated
  | executing gated _ => gated
  | _ => false

/-- A worker that has not been through its `finally` block. -/
def unsettled : WorkerAt → Bool
  | registered | waiting | holding | admitted _ _ | executing _ _ | left => true
  | _ => false

/-- A worker with a statement on the sink. -/
def executes : WorkerAt → Bool
  | executing _ _ => true
  | _ => false

/-- A worker that is to close the cursor. -/
def closes : WorkerAt → Bool
  | closing => true
  | _ => false

end WorkerAt

/-- Where the applier stands in `commit_group`. -/
inductive ApplierAt
  /-- Before the window or after it. -/
  | outside
  /-- `_arm_commit_timeout_alert`, in the body of `excluded`. -/
  | arming
  /-- `enter`, with the gate. -/
  | entering
  /-- `enter`, after the assignment. -/
  | entered
  /-- `COMMIT` and the acknowledgements. -/
  | inside
deriving DecidableEq

namespace ApplierAt

/-- The applier with the gate. -/
def gated : ApplierAt → Bool
  | arming | entering | entered => true
  | _ => false

/-- The applier in the window. -/
def windowed : ApplierAt → Bool
  | entered | inside => true
  | _ => false

end ApplierAt

/-- Where the thread of the run stands in a `RunPhaseWriter`. -/
inductive CallerAt
  | idle
  /-- `_write` or `record_log`, which have seen a sink. -/
  | writing (terminal : Bool)
  /-- `_execute_bounded`, before `worker.start()`. -/
  | starting (i : ℕ)
  /-- `close`, with the worker it has read. -/
  | retiring (worker : Option ℕ)
deriving DecidableEq

/-- Where the thread of `retire_handle` stands. -/
inductive CloserAt
  | unborn
  | closing
  | finished
deriving DecidableEq

/-- The thread that is to close the cursor. -/
def CloserAt.closes : CloserAt → Bool
  | .closing => true
  | _ => false

/-- A thread that may hold `_gate`. -/
inductive GateThread
  | applier
  | worker (i : ℕ)
deriving DecidableEq

/-- Who is to close the cursor, or that it was closed. -/
inductive Custodian
  | phases
  | worker (i : ℕ)
  | closer
  | closed
deriving DecidableEq

/-- The window, the sink and the threads. -/
structure Process where
  /-- `_active`. -/
  active : Bool := false
  /-- `_gate`. -/
  gate : Option GateThread := none
  droppedWrites : ℕ := 0
  ungatedTerminalWrites : ℕ := 0
  /-- Whether `_sink` is a cursor. -/
  sink : Bool := true
  /-- `_terminal_worker`. -/
  terminalWorker : Option ℕ := none
  /-- `_terminal_worker_completed`. -/
  completed : Bool := true
  /-- `_released`. -/
  released : Bool := false
  applier : ApplierAt := .outside
  caller : CallerAt := .idle
  closer : CloserAt := .unborn
  /-- The number of workers so far. -/
  workers : ℕ := 0
  worker : ℕ → WorkerAt := fun _ => .unborn
  /-- Whether the write of a worker is the terminal one. -/
  terminal : ℕ → Bool := fun _ => false
  /-- How often the cursor was closed. -/
  closes : ℕ := 0

/-! ### Steps -/

/-- A step of the applier: `_arm_commit_timeout_alert` gets the gate and gives it back, `enter` gets
the gate, assigns and gives it back, and `leave`, which is also on the way of every exception. -/
inductive ApplierStep
  | arm
  | armed
  | enter
  | activate
  | open
  | leave
deriving DecidableEq

/-- A step of the thread of the run: a write that sees a sink, `_execute_bounded` under the sink
lock and after it, and `close` before and after it has waited for the worker. -/
inductive CallerStep
  | write (terminal : Bool)
  | refuse (terminal : Bool)
  | register (terminal : Bool)
  | start (i : ℕ)
  | close
  | abandon (worker : Option ℕ)
  | retire (worker : Option ℕ)
deriving DecidableEq

/-- A step of a worker: `excluded` gets the gate, reads `_active` or stops waiting; a write in the
window is dropped; a statement begins and ends; `excluded` is left; the `finally` block under the
sink lock, without the sink or with it; the sink is closed. -/
inductive WorkerStep
  | acquire
  | look
  | expire
  | drop (gated insideWindow : Bool)
  | begin (gated insideWindow : Bool)
  | finish (gated insideWindow : Bool)
  | exit (gated insideWindow : Bool)
  | settle
  | take
  | close
deriving DecidableEq

/-- A step of one of the threads. -/
inductive ThreadStep
  | applier (a : ApplierStep)
  | caller (a : CallerStep)
  | worker (i : ℕ) (a : WorkerStep)
  /-- The thread of `retire_handle` closes the cursor. -/
  | closer
deriving DecidableEq

namespace Process

/-- A thread goes on. -/
def setWorker (s : Process) (i : ℕ) (at' : WorkerAt) : Process :=
  { s with worker := Function.update s.worker i at' }

/-- The holder of `_gate` after a body of `excluded` that had the gate or not. -/
def gateAfter (s : Process) (gated : Bool) : Option GateThread := if gated then none else s.gate

/-- A write in the window is dropped, unless it is the terminal one. -/
def drops (s : Process) (i : ℕ) (insideWindow : Bool) : Bool := insideWindow && !s.terminal i

/-- `busy` of `_execute_bounded`. -/
def busy (s : Process) : Bool := s.terminalWorker.isSome && !s.completed

/-- When the applier can take the step. -/
def EnabledApplier (s : Process) : ApplierStep → Prop
  | .arm | .enter => s.applier = .outside ∧ s.gate = none
  | .armed => s.applier = .arming
  | .activate => s.applier = .entering
  | .open => s.applier = .entered
  | .leave => s.applier = .inside ∨ s.applier = .outside

/-- The process after a step of the applier. -/
def nextApplier (s : Process) : ApplierStep → Process
  | .arm => { s with applier := .arming, gate := some .applier }
  | .armed => { s with applier := .outside, gate := none }
  | .enter => { s with applier := .entering, gate := some .applier }
  | .activate => { s with applier := .entered, active := true }
  | .open => { s with applier := .inside, gate := none }
  | .leave => { s with applier := .outside, active := false }

/-- When the thread of the run can take the step. -/
def EnabledCaller (s : Process) : CallerStep → Prop
  | .write _ | .close => s.caller = .idle ∧ s.sink = true
  | .refuse terminal => s.caller = .writing terminal ∧ s.busy = true
  | .register terminal => s.caller = .writing terminal ∧ s.busy = false
  | .start i => s.caller = .starting i
  | .abandon worker => s.caller = .retiring worker ∧ worker ≠ none ∧ s.completed = false
  | .retire worker => s.caller = .retiring worker ∧ (worker = none ∨ s.completed = true)

/-- The process after a step of the thread of the run. -/
def nextCaller (s : Process) : CallerStep → Process
  | .write terminal => { s with caller := .writing terminal }
  | .refuse _ => { s with caller := .idle }
  | .register terminal => { s with
      caller := .starting s.workers
      terminalWorker := some s.workers
      completed := false
      workers := s.workers + 1
      worker := Function.update s.worker s.workers .registered
      terminal := Function.update s.terminal s.workers terminal }
  | .start i => { s.setWorker i .waiting with caller := .idle }
  | .close => { s with caller := .retiring s.terminalWorker }
  | .abandon _ => { s with caller := .idle, released := true }
  | .retire _ => { s with
      caller := .idle
      sink := false
      closer := if s.sink then .closing else s.closer }

/-- When a worker can take the step. -/
def EnabledWorker (s : Process) (i : ℕ) : WorkerStep → Prop
  | .acquire => s.worker i = .waiting ∧ s.gate = none
  | .look => s.worker i = .holding
  | .expire => s.worker i = .waiting ∧ s.terminal i = true
  | .drop gated insideWindow =>
    s.worker i = .admitted gated insideWindow ∧ s.drops i insideWindow = true
  | .begin gated insideWindow =>
    s.worker i = .admitted gated insideWindow ∧ s.drops i insideWindow = false ∧ s.sink = true
  | .finish gated insideWindow => s.worker i = .executing gated insideWindow
  | .exit gated insideWindow =>
    s.worker i = .admitted gated insideWindow ∧ s.drops i insideWindow = false
  | .settle => s.worker i = .left ∧ (s.released = false ∨ s.sink = false)
  | .take => s.worker i = .left ∧ s.released = true ∧ s.sink = true
  | .close => s.worker i = .closing

/-- The process after a step of a worker. -/
def nextWorker (s : Process) (i : ℕ) : WorkerStep → Process
  | .acquire => { s.setWorker i .holding with gate := some (.worker i) }
  | .look => s.setWorker i (.admitted true s.active)
  | .expire => { s.setWorker i (.admitted false false) with
      ungatedTerminalWrites := s.ungatedTerminalWrites + 1 }
  | .drop gated _ => { s.setWorker i .left with
      gate := s.gateAfter gated
      droppedWrites := s.droppedWrites + 1 }
  | .begin gated insideWindow => s.setWorker i (.executing gated insideWindow)
  | .finish gated insideWindow => s.setWorker i (.admitted gated insideWindow)
  | .exit gated _ => { s.setWorker i .left with gate := s.gateAfter gated }
  | .settle => { s.setWorker i .finished with completed := true }
  | .take => { s.setWorker i .closing with sink := false, completed := true }
  | .close => { s.setWorker i .finished with closes := s.closes + 1 }

/-- When a thread can take the step. -/
def Enabled (s : Process) : ThreadStep → Prop
  | .applier a => s.EnabledApplier a
  | .caller a => s.EnabledCaller a
  | .worker i a => s.EnabledWorker i a
  | .closer => s.closer = .closing

/-- The process after the step of a thread. -/
def next (s : Process) : ThreadStep → Process
  | .applier a => s.nextApplier a
  | .caller a => s.nextCaller a
  | .worker i a => s.nextWorker i a
  | .closer => { s with closer := .finished, closes := s.closes + 1 }

/-- One step. -/
def Step (s : Process) (a : ThreadStep) (t : Process) : Prop := s.Enabled a ∧ t = s.next a

/-! ### Who holds what -/

/-- Whether a thread thinks that it has the gate. -/
def holdsGate (s : Process) : GateThread → Bool
  | .applier => s.applier.gated
  | .worker i => (s.worker i).gated

/-- The worker that owns the sink. -/
def sinkOwner (s : Process) : Option ℕ := if s.completed then none else s.terminalWorker

/-- Whether a worker thinks that it owns the sink. -/
def ownsSink (s : Process) (i : ℕ) : Bool := (s.worker i).unsettled

/-- Whether somebody is to close the cursor. -/
def holdsCursor (s : Process) : Custodian → Bool
  | .phases => s.sink
  | .worker i => (s.worker i).closes
  | .closer => s.closer.closes
  | .closed => s.closes != 0

section SetWorker

variable (s : Process) (i : ℕ) (p : WorkerAt)

theorem holdsGate_setWorker : (s.setWorker i p).holdsGate =
    Function.update s.holdsGate (.worker i) p.gated := by
  funext h
  cases h with
  | applier => rfl
  | worker j =>
    simp only [holdsGate, setWorker, Function.update_apply, GateThread.worker.injEq]
    split_ifs <;> rfl

theorem ownsSink_setWorker : (s.setWorker i p).ownsSink =
    Function.update s.ownsSink i p.unsettled := by
  funext j
  simp only [ownsSink, setWorker, Function.update_apply]
  split_ifs <;> rfl

theorem holdsCursor_setWorker : (s.setWorker i p).holdsCursor =
    Function.update s.holdsCursor (.worker i) p.closes := by
  funext c
  cases c with
  | worker j =>
    simp only [holdsCursor, setWorker, Function.update_apply, Custodian.worker.injEq]
    split_ifs <;> rfl
  | _ => rfl

end SetWorker

/-- The applier goes on, and no worker does. -/
theorem holdsGate_applier {s t : Process} (h : t.worker = s.worker) :
    t.holdsGate = Function.update s.holdsGate .applier t.applier.gated := by
  funext thread
  cases thread with
  | applier => rw [Function.update_self, holdsGate]
  | worker i => rw [Function.update_of_ne (by simp), holdsGate, holdsGate, h]

end Process

/-! ### What the threads know -/

/-- A worker with the gate is right about a window that it saw closed. Only a terminal write goes
without the gate, and only a terminal statement runs in a window that was seen open. -/
def WorkerAt.Right (active terminal : Bool) : WorkerAt → Prop
  | admitted gated insideWindow =>
    (gated = true → insideWindow = false → active = false) ∧ (gated = false → terminal = true)
  | executing gated insideWindow =>
    (gated = true → insideWindow = false → active = false) ∧ (gated = false → terminal = true) ∧
      (insideWindow = true → terminal = true)
  | _ => True

namespace WorkerAt

variable {p : WorkerAt} {active terminal : Bool}

/-- The window is left. -/
theorem Right.leave (h : p.Right active terminal) : p.Right false terminal := by
  cases p <;> simp_all [Right]

/-- The window is opened beside a worker that does not have the gate. -/
theorem Right.activate (h : p.Right active terminal) (hp : p.gated = false) :
    p.Right true terminal := by
  cases p <;> simp_all [Right, gated]

/-- A statement that is not terminal runs with the gate, and outside of the window. -/
theorem Right.executing (h : p.Right active false) (hp : p.executes = true) :
    p.gated = true ∧ active = false := by
  cases p <;> simp_all [Right, executes, gated]

theorem unsettled_of_gated (hp : p.gated = true) : p.unsettled = true := by
  cases p <;> simp_all [gated, unsettled]

theorem unsettled_of_executes (hp : p.executes = true) : p.unsettled = true := by
  cases p <;> simp_all [executes, unsettled]

end WorkerAt

namespace Process

/-- What the thread of the run has read or written is still so. -/
def CallerKnows (s : Process) : Prop :=
  (∀ i, s.caller = .starting i → s.worker i = .registered) ∧
    ∀ worker, s.caller = .retiring worker → worker = s.terminalWorker

/-- What holds whatever the order of the steps. -/
structure Sound (s : Process) : Prop where
  gate : Owns s.gate s.holdsGate
  owner : Owns s.sinkOwner s.ownsSink
  cursor : ∃ custodian, Owns (some custodian) s.holdsCursor
  closes : s.closes ≤ 1
  active : s.active = s.applier.windowed
  right : ∀ i, (s.worker i).Right s.active (s.terminal i)
  sink : ∀ i, (s.worker i).executes = true → s.sink = true
  caller : s.CallerKnows
  fresh : ∀ i, s.workers ≤ i → s.worker i = .unborn

theorem sound_init : ({} : Process).Sound where
  gate h := by cases h <;> simp [holdsGate, ApplierAt.gated, WorkerAt.gated]
  owner i := by simp [ownsSink, sinkOwner, WorkerAt.unsettled]
  cursor := ⟨.phases, fun c => by cases c <;> simp [holdsCursor, WorkerAt.closes, CloserAt.closes]⟩
  closes := Nat.zero_le 1
  active := rfl
  right _ := trivial
  sink _ h := by simp [WorkerAt.executes] at h
  caller := ⟨fun _ h => by simp at h, fun _ h => by simp at h⟩
  fresh _ _ := rfl

namespace Sound

variable {s t : Process} {a : ThreadStep}

/-- A worker that is settled does not hold the gate. -/
theorem not_gated_of_settled (i : ℕ) (hi : (s.worker i).unsettled = false) :
    (s.worker i).gated = false := by
  rw [Bool.eq_false_iff] at hi ⊢
  exact mt WorkerAt.unsettled_of_gated hi

/-- Nobody owns the sink while nothing is to be waited for. -/
theorem settled_of_idle (h : s.Sound) (hidle : s.terminalWorker = none ∨ s.completed = true)
    (i : ℕ) : (s.worker i).unsettled = false := by
  have howner : s.sinkOwner = none := by
    rcases hidle with hnone | hdone
    · simp [sinkOwner, hnone]
    · simp [sinkOwner, hdone]
  have hfree := h.owner
  rw [howner] at hfree
  exact hfree.not_of_free i

theorem idle_of_not_busy (hbusy : s.busy = false) :
    s.terminalWorker = none ∨ s.completed = true := by
  simpa [busy, Option.isSome_iff_ne_none, or_iff_not_imp_left] using hbusy

/-! ### The gate -/

theorem gateAfter_owns (h : s.Sound) {i : ℕ} {gated insideWindow : Bool}
    (hi : s.worker i = .admitted gated insideWindow) :
    Owns (s.gateAfter gated) (Function.update s.holdsGate (.worker i) false) := by
  have hholds : s.holdsGate (.worker i) = gated := by rw [holdsGate, hi, WorkerAt.gated]
  cases gated with
  | true => exact h.gate.release hholds
  | false => exact h.gate.keep_update hholds.symm

theorem gate_applier (h : s.Sound) {a : ApplierStep} (ha : s.EnabledApplier a) :
    Owns (s.nextApplier a).gate (s.nextApplier a).holdsGate := by
  have hheld : s.applier.gated = true → s.holdsGate .applier = true := id
  rw [holdsGate_applier (show (s.nextApplier a).worker = s.worker by cases a <;> rfl)]
  cases a
  case arm | enter =>
    obtain ⟨-, hfree⟩ := ha
    have hgate := h.gate
    rw [hfree] at hgate
    exact hgate.acquire .applier
  case armed | «open» => exact h.gate.release (hheld (by rw [ha]; rfl))
  case activate => exact h.gate.keep_update (by rw [holdsGate, ha]; rfl)
  case leave => exact h.gate.keep_update (by rcases ha with ha | ha <;> rw [holdsGate, ha] <;> rfl)

theorem gate_caller (h : s.Sound) {a : CallerStep} (ha : s.EnabledCaller a) :
    Owns (s.nextCaller a).gate (s.nextCaller a).holdsGate := by
  cases a
  case write | refuse | close | abandon | retire => exact h.gate
  case register terminal =>
    have hnew := not_gated_of_settled _ (h.settled_of_idle (idle_of_not_busy ha.2) s.workers)
    change Owns s.gate (s.setWorker s.workers .registered).holdsGate
    rw [holdsGate_setWorker]
    exact h.gate.keep_update hnew.symm
  case start i =>
    change Owns s.gate (s.setWorker i .waiting).holdsGate
    rw [holdsGate_setWorker]
    exact h.gate.keep_update (by rw [holdsGate, h.caller.1 i ha]; rfl)

theorem gate_worker (h : s.Sound) {i : ℕ} {a : WorkerStep} (ha : s.EnabledWorker i a) :
    Owns (s.nextWorker i a).gate (s.nextWorker i a).holdsGate := by
  have hkeep (p : WorkerAt) (hp : p.gated = (s.worker i).gated) :
      Owns s.gate (s.setWorker i p).holdsGate := by
    rw [holdsGate_setWorker]
    exact h.gate.keep_update hp
  cases a
  case acquire =>
    have hgate := h.gate
    rw [ha.2] at hgate
    change Owns (some _) (s.setWorker i .holding).holdsGate
    rw [holdsGate_setWorker]
    exact hgate.acquire _
  case drop | exit =>
    change Owns (s.gateAfter _) (s.setWorker i .left).holdsGate
    rw [holdsGate_setWorker]
    exact h.gateAfter_owns ha.1
  case look | finish | close => exact hkeep _ (by rw [ha]; rfl)
  case expire | begin | settle | take => exact hkeep _ (by rw [ha.1]; rfl)

/-! ### The sink -/

theorem owner_caller (h : s.Sound) {a : CallerStep} (ha : s.EnabledCaller a) :
    Owns (s.nextCaller a).sinkOwner (s.nextCaller a).ownsSink := by
  cases a
  case write | refuse | close | abandon | retire => exact h.owner
  case register terminal =>
    have hfree : Owns none s.ownsSink := .of_not (h.settled_of_idle (idle_of_not_busy ha.2))
    change Owns (some s.workers) (s.setWorker s.workers .registered).ownsSink
    rw [ownsSink_setWorker]
    exact hfree.acquire _
  case start i =>
    change Owns s.sinkOwner (s.setWorker i .waiting).ownsSink
    rw [ownsSink_setWorker]
    exact h.owner.keep_update (by rw [ownsSink, h.caller.1 i ha]; rfl)

theorem owner_worker (h : s.Sound) {i : ℕ} {a : WorkerStep} (ha : s.EnabledWorker i a) :
    Owns (s.nextWorker i a).sinkOwner (s.nextWorker i a).ownsSink := by
  have hkeep (p : WorkerAt) (hp : p.unsettled = (s.worker i).unsettled) :
      Owns s.sinkOwner (s.setWorker i p).ownsSink := by
    rw [ownsSink_setWorker]
    exact h.owner.keep_update hp
  cases a
  case settle | take =>
    change Owns none (s.setWorker i _).ownsSink
    rw [ownsSink_setWorker]
    exact h.owner.release (by rw [ownsSink, ha.1]; rfl)
  case look | finish | close => exact hkeep _ (by rw [ha]; rfl)
  case acquire | expire | drop | begin | exit => exact hkeep _ (by rw [ha.1]; rfl)

/-- The cursor goes with the sink, unless a statement runs on it. -/
theorem not_executes (h : s.Sound) {i : ℕ} (hi : (s.worker i).unsettled = true)
    (hi' : (s.worker i).executes = false) (j : ℕ) : (s.worker j).executes = false := by
  rw [Bool.eq_false_iff] at hi' ⊢
  intro hj
  obtain rfl := h.owner.eq (WorkerAt.unsettled_of_executes hj) hi
  exact hi' hj

/-! ### The cursor -/

/-- A worker that does not start or stop to close leaves the cursor where it is. -/
theorem cursor_setWorker {custodian : Custodian} (h : Owns (some custodian) s.holdsCursor) {i : ℕ}
    {p : WorkerAt} (hi : (s.worker i).closes = false) (hp : p.closes = false) :
    Owns (some custodian) (s.setWorker i p).holdsCursor := by
  rw [holdsCursor_setWorker]
  exact h.keep_update (hp.trans hi.symm)

/-- Who has the cursor closes it for the first time. -/
theorem closes_eq_zero (h : s.Sound) {c : Custodian} (hc : s.holdsCursor c = true)
    (hne : .closed ≠ c) : s.closes = 0 := by
  obtain ⟨custodian, howns⟩ := h.cursor
  simpa [holdsCursor] using howns.not_of_ne hc hne

theorem cursor_caller (h : s.Sound) {a : CallerStep} (ha : s.EnabledCaller a) :
    ∃ custodian, Owns (some custodian) (s.nextCaller a).holdsCursor := by
  obtain ⟨custodian, howns⟩ := h.cursor
  cases a
  case write | refuse | close | abandon => exact ⟨custodian, howns⟩
  case register terminal =>
    refine ⟨custodian, cursor_setWorker (p := .registered) howns ?_ rfl⟩
    rw [h.fresh s.workers le_rfl]
    rfl
  case start i =>
    refine ⟨custodian, cursor_setWorker (p := .waiting) howns ?_ rfl⟩
    rw [h.caller.1 i ha]
    rfl
  case retire worker =>
    by_cases hsink : s.sink = true
    · have heq : (s.nextCaller (.retire worker)).holdsCursor =
          Function.update (Function.update s.holdsCursor .phases false) .closer true := by
        funext c
        cases c <;> simp [holdsCursor, nextCaller, hsink, CloserAt.closes]
      exact ⟨.closer, heq ▸ howns.pass (show s.holdsCursor .phases = true from hsink) _⟩
    · have heq : (s.nextCaller (.retire worker)).holdsCursor = s.holdsCursor := by
        funext c
        cases c <;> simp [holdsCursor, nextCaller, hsink]
      exact ⟨custodian, heq ▸ howns⟩

theorem cursor_worker (h : s.Sound) {i : ℕ} {a : WorkerStep} (ha : s.EnabledWorker i a) :
    ∃ custodian, Owns (some custodian) (s.nextWorker i a).holdsCursor := by
  obtain ⟨custodian, howns⟩ := h.cursor
  have hkeep {p : WorkerAt} (hi : (s.worker i).closes = false) (hp : p.closes = false) :=
    cursor_setWorker howns hi hp
  cases a
  case take =>
    have heq : (s.nextWorker i .take).holdsCursor =
        Function.update (Function.update s.holdsCursor .phases false) (.worker i) true := by
      funext c
      rw [show (s.nextWorker i .take).holdsCursor c = if c = .phases then false
        else (s.setWorker i .closing).holdsCursor c by cases c <;> simp [holdsCursor, nextWorker],
        holdsCursor_setWorker]
      cases c <;> simp [Function.update_apply, WorkerAt.closes]
    exact ⟨.worker i, heq ▸ howns.pass (show s.holdsCursor .phases = true from ha.2.2) _⟩
  case close =>
    have heq : (s.nextWorker i .close).holdsCursor =
        Function.update (Function.update s.holdsCursor (.worker i) false) .closed true := by
      funext c
      rw [show (s.nextWorker i .close).holdsCursor c = if c = .closed then true
        else (s.setWorker i .finished).holdsCursor c by cases c <;> simp [holdsCursor, nextWorker],
        holdsCursor_setWorker]
      cases c <;> simp [Function.update_apply, WorkerAt.closes]
    refine ⟨.closed, heq ▸ howns.pass (t := .worker i) ?_ _⟩
    rw [holdsCursor, show s.worker i = _ from ha, WorkerAt.closes]
  case look | finish =>
    exact ⟨custodian, hkeep (by rw [show s.worker i = _ from ha]; rfl) rfl⟩
  case acquire | expire | drop | begin | exit | settle =>
    exact ⟨custodian, hkeep (by rw [ha.1]; rfl) rfl⟩

theorem cursor_closer (h : s.Sound) (ha : s.closer = .closing) :
    ∃ custodian, Owns (some custodian) (s.next .closer).holdsCursor := by
  obtain ⟨custodian, howns⟩ := h.cursor
  have heq : (s.next .closer).holdsCursor =
      Function.update (Function.update s.holdsCursor .closer false) .closed true := by
    funext c
    cases c <;> simp [holdsCursor, next, CloserAt.closes]
  exact ⟨.closed, heq ▸ howns.pass (t := .closer) (by rw [holdsCursor, ha, CloserAt.closes]) _⟩

/-! ### The window and the statements -/

/-- What is known of the workers holds of the one that goes on, and of the others. -/
theorem forall_setWorker {P : ℕ → WorkerAt → Prop} {i : ℕ} {p : WorkerAt}
    (h : ∀ j, P j (s.worker j)) (hp : P i p) (j : ℕ) : P j ((s.setWorker i p).worker j) := by
  simp only [setWorker, Function.update_apply]
  split_ifs with hj
  · exact hj ▸ hp
  · exact h j

theorem right_applier (h : s.Sound) {a : ApplierStep} (ha : s.EnabledApplier a) (i : ℕ) :
    ((s.nextApplier a).worker i).Right (s.nextApplier a).active (s.terminal i) := by
  cases a
  case arm | armed | enter | «open» => exact h.right i
  case leave => exact (h.right i).leave
  case activate =>
    have hheld : s.holdsGate .applier = true := by rw [holdsGate, ha]; rfl
    have hnot : s.holdsGate (.worker i) = false := h.gate.not_of_ne hheld (by simp)
    exact (h.right i).activate hnot

theorem right_worker (h : s.Sound) {i : ℕ} {a : WorkerStep} (ha : s.EnabledWorker i a) (j : ℕ) :
    ((s.nextWorker i a).worker j).Right s.active (s.terminal j) := by
  have hset {p : WorkerAt} (hp : p.Right s.active (s.terminal i)) :=
    forall_setWorker (P := fun j q => q.Right s.active (s.terminal j)) h.right hp j
  have hi := h.right i
  cases a
  case acquire | drop | exit | settle | take | close => exact hset trivial
  case look => exact hset ⟨fun _ hactive => hactive, by simp⟩
  case expire => exact hset ⟨by simp, fun _ => ha.2⟩
  case begin gated insideWindow =>
    rw [ha.1] at hi
    refine hset ⟨hi.1, hi.2, fun hinside => ?_⟩
    simpa [drops, hinside] using ha.2.1
  case finish gated insideWindow =>
    rw [show s.worker i = _ from ha] at hi
    exact hset ⟨hi.1, hi.2.1⟩

theorem sink_worker (h : s.Sound) {i : ℕ} {a : WorkerStep} (ha : s.EnabledWorker i a) (j : ℕ)
    (hj : ((s.nextWorker i a).worker j).executes = true) : (s.nextWorker i a).sink = true := by
  have hset {p : WorkerAt} (hp : p.executes = true → s.sink = true) :=
    forall_setWorker (i := i) (P := fun _ q => q.executes = true → s.sink = true) h.sink hp j
  cases a
  case take =>
    have hnone := h.not_executes (i := i) (by rw [ha.1]; rfl) (by rw [ha.1]; rfl)
    have hnot : ((s.setWorker i .closing).worker j).executes = false :=
      forall_setWorker (P := fun _ q => q.executes = false) hnone rfl j
    exact absurd (hnot.symm.trans hj) (by simp)
  case begin => exact hset (fun _ => ha.2.2) hj
  case acquire | look | expire | drop | finish | exit | settle | close =>
    exact hset (fun hp => by simp [WorkerAt.executes] at hp) hj

theorem sink_caller (h : s.Sound) {a : CallerStep} (ha : s.EnabledCaller a) (j : ℕ)
    (hj : ((s.nextCaller a).worker j).executes = true) : (s.nextCaller a).sink = true := by
  have hset {i : ℕ} {p : WorkerAt} (hp : p.executes = true → s.sink = true) :=
    forall_setWorker (i := i) (P := fun _ q => q.executes = true → s.sink = true) h.sink hp j
  cases a
  case write | refuse | close | abandon => exact h.sink j hj
  case register | start => exact hset (fun hp => by simp [WorkerAt.executes] at hp) hj
  case retire worker =>
    have hidle : s.terminalWorker = none ∨ s.completed = true := by
      rcases ha.2 with hnone | hdone
      · exact .inl ((h.caller.2 worker ha.1).symm.trans hnone)
      · exact .inr hdone
    have hsettled := WorkerAt.unsettled_of_executes hj
    rw [show ((s.nextCaller (.retire worker)).worker j) = s.worker j from rfl,
      h.settled_of_idle hidle j] at hsettled
    cases hsettled

/-- A worker that goes on is not unborn, and no other thread gives birth to one. -/
theorem lt_workers (h : s.Sound) {i : ℕ} (hi : s.worker i ≠ .unborn) : i < s.workers := by
  by_contra hge
  exact hi (h.fresh i (by omega))

theorem fresh_worker (h : s.Sound) {i : ℕ} {a : WorkerStep} (ha : s.EnabledWorker i a) (j : ℕ)
    (hj : s.workers ≤ j) : (s.nextWorker i a).worker j = .unborn := by
  have hi : i < s.workers := by
    refine h.lt_workers fun hunborn => ?_
    cases a <;> simp [EnabledWorker, hunborn] at ha
  have hworker : (s.nextWorker i a).worker j = s.worker j := by
    cases a <;> exact Function.update_of_ne (by omega) _ _
  exact hworker.trans (h.fresh j hj)

theorem fresh_caller (h : s.Sound) {a : CallerStep} (ha : s.EnabledCaller a) (j : ℕ)
    (hj : (s.nextCaller a).workers ≤ j) : (s.nextCaller a).worker j = .unborn := by
  cases a
  case write | refuse | close | abandon | retire => exact h.fresh j hj
  case register terminal =>
    change s.workers + 1 ≤ j at hj
    exact (Function.update_of_ne (by omega) _ _).trans (h.fresh j (by omega))
  case start i =>
    have hi : i < s.workers := h.lt_workers (by simp [h.caller.1 i ha])
    exact (Function.update_of_ne (by change s.workers ≤ j at hj; omega) _ _).trans (h.fresh j hj)

theorem caller_caller {a : CallerStep} : (s.nextCaller a).CallerKnows := by
  cases a
  case register terminal =>
    refine ⟨fun i hi => ?_, fun worker hworker => by simp [nextCaller] at hworker⟩
    obtain rfl : s.workers = i := by simpa [nextCaller] using hi
    exact Function.update_self _ _ _
  case close =>
    exact ⟨fun i hi => by simp [nextCaller] at hi, fun worker hworker => by
      simpa [nextCaller] using hworker.symm⟩
  all_goals
    exact ⟨fun i hi => by simp [nextCaller] at hi, fun worker hw => by simp [nextCaller] at hw⟩

theorem caller_worker (h : s.Sound) {i : ℕ} {a : WorkerStep} (ha : s.EnabledWorker i a) :
    (s.nextWorker i a).CallerKnows := by
  have hknows (p : WorkerAt) (hi : s.worker i ≠ .registered) : (s.setWorker i p).CallerKnows := by
    refine ⟨fun j hj => ?_, h.caller.2⟩
    have hregistered := h.caller.1 j hj
    refine (Function.update_of_ne ?_ _ _).trans hregistered
    rintro rfl
    exact hi hregistered
  have hi : s.worker i ≠ .registered := fun hregistered => by
    cases a <;> simp [EnabledWorker, hregistered] at ha
  cases a <;> exact hknows _ hi

theorem closes_worker (h : s.Sound) {i : ℕ} {a : WorkerStep} (ha : s.EnabledWorker i a) :
    (s.nextWorker i a).closes ≤ 1 := by
  cases a
  case close =>
    have hzero : s.closes = 0 := h.closes_eq_zero (c := .worker i)
      (by rw [holdsCursor, show s.worker i = _ from ha]; rfl) (by simp)
    change s.closes + 1 ≤ 1
    omega
  all_goals exact h.closes

/-! ### Runs -/

theorem next_applier (h : s.Sound) {a : ApplierStep} (ha : s.EnabledApplier a) :
    (s.nextApplier a).Sound where
  gate := h.gate_applier ha
  owner := by cases a <;> exact h.owner
  cursor := by cases a <;> exact h.cursor
  closes := by cases a <;> exact h.closes
  active := by
    have hactive := h.active
    cases a
    case arm | enter => rw [nextApplier, hactive, ha.1]; rfl
    case armed | «open» => rw [nextApplier, hactive, ha]; rfl
    case activate | leave => rfl
  right := by
    intro i
    have hright := h.right_applier ha i
    cases a <;> exact hright
  sink := by cases a <;> exact h.sink
  caller := by cases a <;> exact h.caller
  fresh := by cases a <;> exact h.fresh

theorem next_caller (h : s.Sound) {a : CallerStep} (ha : s.EnabledCaller a) :
    (s.nextCaller a).Sound where
  gate := h.gate_caller ha
  owner := h.owner_caller ha
  cursor := h.cursor_caller ha
  closes := by cases a <;> exact h.closes
  active := by cases a <;> exact h.active
  right := by
    intro j
    cases a
    case register terminal =>
      simp only [nextCaller, Function.update_apply]
      split_ifs
      · trivial
      · exact h.right j
    case start i =>
      exact forall_setWorker (p := .waiting) (P := fun j q => q.Right s.active (s.terminal j))
        h.right trivial j
    all_goals exact h.right j
  sink := h.sink_caller ha
  caller := caller_caller
  fresh := h.fresh_caller ha

theorem next_worker (h : s.Sound) {i : ℕ} {a : WorkerStep} (ha : s.EnabledWorker i a) :
    (s.nextWorker i a).Sound where
  gate := h.gate_worker ha
  owner := h.owner_worker ha
  cursor := h.cursor_worker ha
  closes := h.closes_worker ha
  active := by cases a <;> exact h.active
  right := by
    intro j
    have hright := h.right_worker ha j
    cases a <;> exact hright
  sink := h.sink_worker ha
  caller := h.caller_worker ha
  fresh := by
    intro j hj
    refine h.fresh_worker ha j ?_
    cases a <;> exact hj

/-- **Step.** Every step of every thread keeps what holds. -/
theorem step (h : s.Sound) (hstep : s.Step a t) : t.Sound := by
  obtain ⟨ha, rfl⟩ := hstep
  cases a with
  | applier a => exact h.next_applier ha
  | caller a => exact h.next_caller ha
  | worker i a => exact h.next_worker ha
  | closer =>
    have hzero : s.closes = 0 := h.closes_eq_zero (c := .closer)
      (by rw [holdsCursor, show s.closer = _ from ha]; rfl) (by simp)
    have hcloses : s.closes + 1 ≤ 1 := by omega
    exact ⟨h.gate, h.owner, h.cursor_closer ha, hcloses, h.active, h.right, h.sink, h.caller,
      h.fresh⟩

end Sound

/-- A run of the threads from the start of the process. -/
def Reached (steps : List ThreadStep) (s : Process) : Prop := Trace Step {} steps s

variable {s t : Process} {steps : List ThreadStep}

/-- **Run.** -/
theorem Reached.sound (h : Reached steps s) : s.Sound :=
  Trace.invariant (fun _ _ _ hs hstep => hs.step hstep) h sound_init

/-- A phase is written while the applier waits outside. -/
def phaseWrite : List ThreadStep :=
  [.caller (.write false), .caller (.register false), .caller (.start 0), .worker 0 .acquire,
    .worker 0 .look, .worker 0 (.begin true false)]

/-- The process in the statement of the phase write. -/
def phaseWritten : Process := phaseWrite.foldl next {}

theorem reached_phaseWrite : Reached phaseWrite phaseWritten :=
  .cons ⟨⟨rfl, rfl⟩, rfl⟩ <| .cons ⟨⟨rfl, rfl⟩, rfl⟩ <| .cons ⟨rfl, rfl⟩ <|
    .cons ⟨⟨rfl, rfl⟩, rfl⟩ <| .cons ⟨rfl, rfl⟩ <| .cons ⟨⟨rfl, rfl, rfl⟩, rfl⟩ <| .nil _

/-- **The exclusion.** While a statement of a worker runs, the applier is neither between opening
the window and leaving it, nor about to open it, unless the write is the terminal one. -/
theorem outside_of_executing (h : Reached steps s) {i : ℕ} (hi : (s.worker i).executes = true)
    (hterminal : s.terminal i = false) :
    s.active = false ∧ s.applier = .outside ∧ s.gate = some (.worker i) := by
  have hsound := h.sound
  have hright := hsound.right i
  rw [hterminal] at hright
  obtain ⟨hgated, hactive⟩ := hright.executing hi
  have hholds : s.holdsGate (.worker i) = true := hgated
  refine ⟨hactive, ?_, (hsound.gate _).1 hholds⟩
  have hnot : s.holdsGate .applier = false := hsound.gate.not_of_ne hholds (by simp)
  have hwindowed := hsound.active.symm.trans hactive
  cases hat : s.applier <;> simp_all [holdsGate, ApplierAt.gated, ApplierAt.windowed]

theorem outside_phaseWritten : phaseWritten.active = false ∧ phaseWritten.applier = .outside ∧
    phaseWritten.gate = some (.worker 0) :=
  outside_of_executing reached_phaseWrite rfl rfl

/-- **The sink.** While a statement runs on the sink, no other statement does, the cursor is open
and nobody is about to close it; and the cursor is closed at most once. -/
theorem sink_of_executing (h : Reached steps s) : s.closes ≤ 1 ∧
    ∀ i, (s.worker i).executes = true →
      s.sink = true ∧ s.closes = 0 ∧ s.closer ≠ .closing ∧ (∀ j, s.worker j ≠ .closing) ∧
        ∀ j, (s.worker j).executes = true → j = i := by
  have hsound := h.sound
  refine ⟨hsound.closes, fun i hi => ?_⟩
  have hsink : s.holdsCursor .phases = true := hsound.sink i hi
  obtain ⟨custodian, howns⟩ := hsound.cursor
  have hother {c : Custodian} (hc : c ≠ .phases) : s.holdsCursor c = false :=
    howns.not_of_ne hsink hc
  refine ⟨hsink, hsound.closes_eq_zero hsink (by simp), fun hcloser => ?_, fun j hj => ?_,
    fun j hj => ?_⟩
  · have hnot := hother (c := .closer) (by simp)
    rw [holdsCursor, hcloser] at hnot
    cases hnot
  · have hnot := hother (c := .worker j) (by simp)
    rw [holdsCursor, hj] at hnot
    cases hnot
  · exact hsound.owner.eq (WorkerAt.unsettled_of_executes hj) (WorkerAt.unsettled_of_executes hi)

theorem sink_phaseWritten : phaseWritten.sink = true ∧ phaseWritten.closes = 0 ∧
    phaseWritten.closer ≠ .closing ∧ (∀ j, phaseWritten.worker j ≠ .closing) ∧
      ∀ j, (phaseWritten.worker j).executes = true → j = 0 :=
  (sink_of_executing reached_phaseWrite).2 0 rfl

/-- The thread that takes the step, if it is one that may hold the gate. -/
def ThreadStep.gateThread : ThreadStep → Option GateThread
  | .applier _ => some .applier
  | .worker i _ => some (.worker i)
  | _ => none

/-- The thread gives the gate back in so many steps of its own, whatever steps the other threads
take before each of them: until then a step of its own can always be taken. -/
def FreesWithin (thread : GateThread) : ℕ → Process → Prop
  | 0, s => s.gate = none
  | n + 1, s => s.gate = none ∨ ∀ others t, (∀ a ∈ others, ThreadStep.gateThread a ≠ some thread) →
      Trace Step s others t →
        ∃ a u, ThreadStep.gateThread a = some thread ∧ Step t a u ∧ FreesWithin thread n u

theorem FreesWithin.succ {thread : GateThread} {n : ℕ} (h : FreesWithin thread n s) :
    FreesWithin thread (n + 1) s := by
  induction n generalizing s with
  | zero => exact .inl h
  | succ n ih =>
    rcases h with hnone | hnext
    · exact .inl hnone
    · refine .inr fun others t hothers htrace => ?_
      obtain ⟨a, u, ha, hstep, hu⟩ := hnext others t hothers htrace
      exact ⟨a, u, ha, hstep, ih hu⟩

end Process

end CdcFlight
