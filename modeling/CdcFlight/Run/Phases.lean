import CdcFlight.States.Machine

/-!
# Where a run is, and why it stopped

The phase and the outcome of `run_state.RunPhaseWriter`: `to`, `ensure` and `finish` move the phase
along `machines.RUN_PHASE`, and `RunOutcome.record` takes a reason that is more severe than the one
it has. The heartbeat row that a transition writes is left out.

## Main definitions

* `CdcFlight.runPhase`, `CdcFlight.runOutcome`: the two machines.
* `CdcFlight.RunOutcome.record`, `CdcFlight.PhaseWriter.call`.

## Main results

* `CdcFlight.RunOutcome.recordAll_spec`: the outcome is the most severe reason, and every reason
  is accounted for.
* `CdcFlight.RunOutcome.value_recordAll_perm`: whatever the order of the reasons.
* `CdcFlight.PhaseWriter.phases_of_run`: the phases are a declared path that `finish` ends.
-/

namespace CdcFlight

open Lib

/-! ### The outcome -/

/-- `machines.OUTCOME_ORDER`, the least severe first. -/
inductive StopReason
  | maxSeconds
  | idle
  | workDone
  | engineFinished
  | hung
  | catalogUnresolved
  | recoveryUncleared
  | sourceDark
  | engineError
  | error
deriving DecidableEq

/-- `OUTCOME_ORDER`. -/
def outcomeOrder : List StopReason :=
  [.maxSeconds, .idle, .workDone, .engineFinished, .hung, .catalogUnresolved, .recoveryUncleared,
    .sourceDark, .engineError, .error]

theorem nodup_outcomeOrder : outcomeOrder.Nodup := by decide

theorem mem_outcomeOrder (o : StopReason) : o ∈ outcomeOrder := by cases o <;> simp [outcomeOrder]

/-- `RUN_OUTCOME`. -/
def runOutcome : Machine StopReason := ranked outcomeOrder nodup_outcomeOrder

/-- `OUTCOME_FAILURES`. -/
def outcomeFailures : List StopReason := outcomeOrder.drop (outcomeOrder.idxOf .hung)

/-- How severe an outcome is. -/
def StopReason.rank (o : StopReason) : ℕ := outcomeOrder.idxOf o

theorem StopReason.rank_injective : Function.Injective StopReason.rank := fun a _ h =>
  (List.idxOf_inj (mem_outcomeOrder a)).1 h

theorem allows_runOutcome {a b : StopReason} : runOutcome.allows a b = true ↔ a.rank < b.rank := by
  rw [Machine.allows_iff, runOutcome, mem_edges_ranked, and_iff_left (mem_outcomeOrder b)]
  rfl

theorem mem_outcomeFailures {o : StopReason} :
    o ∈ outcomeFailures ↔ StopReason.hung.rank ≤ o.rank := by
  cases o <;> decide

/-- `run_state.RunOutcome`. -/
structure RunOutcome where
  value : StopReason := .maxSeconds
  refusals : List (StopReason × StopReason) := []
  history : List StopReason := [value]

namespace RunOutcome

/-- `failed`. -/
def failed (o : RunOutcome) : Bool := o.value ∈ outcomeFailures

/-- `record`. -/
def record (o : RunOutcome) (reason : StopReason) : RunOutcome :=
  if reason = o.value then o
  else if runOutcome.allows o.value reason then
    { o with value := reason, history := o.history ++ [reason] }
  else { o with refusals := o.refusals ++ [(o.value, reason)] }

/-- Several reasons, one after the other. -/
def recordAll (o : RunOutcome) (reasons : List StopReason) : RunOutcome := reasons.foldl record o

/-- What is so after the reasons. -/
structure Tells (o : RunOutcome) (reasons : List StopReason) : Prop where
  mem : o.value ∈ reasons
  max : ∀ r ∈ reasons, r.rank ≤ o.value.rank
  rising : o.history.Pairwise fun a b => a.rank < b.rank
  last : o.history.getLast? = some o.value
  history : o.history.Sublist reasons
  refused : ∀ p ∈ o.refusals, p.1 ∈ o.history ∧ p.2 ∈ reasons ∧ p.2.rank < p.1.rank
  accounted : ∀ r ∈ reasons, r ∈ o.history ∨ ∃ p ∈ o.refusals, p.2 = r

variable {o : RunOutcome} {reasons : List StopReason} {r : StopReason}

theorem tells_init (initial : StopReason) : Tells { value := initial } [initial] where
  mem := List.mem_singleton_self _
  max _ h := (congrArg StopReason.rank (List.mem_singleton.1 h)).le
  rising := List.pairwise_singleton _ _
  last := rfl
  history := List.Sublist.refl _
  refused _ h := absurd h List.not_mem_nil
  accounted _ h := .inl h

/-- The rank of what was told before is at most the rank of the diagnosis. -/
theorem Tells.rank_le (h : o.Tells reasons) {a : StopReason} (ha : a ∈ o.history) :
    a.rank ≤ o.value.rank := h.max a (h.history.subset ha)

theorem Tells.record (h : o.Tells reasons) (r : StopReason) :
    (o.record r).Tells (reasons ++ [r]) := by
  have hold {a : StopReason} (ha : a ∈ reasons) : a ∈ reasons ++ [r] := List.mem_append_left _ ha
  have hnew : r ∈ reasons ++ [r] := List.mem_append_right _ (List.mem_singleton_self r)
  have hsub : o.history.Sublist (reasons ++ [r]) :=
    h.history.trans (List.sublist_append_left reasons [r])
  have hall {P : StopReason → Prop} (hP : ∀ a ∈ reasons, P a) (hr : P r) :
      ∀ a ∈ reasons ++ [r], P a := by
    intro a ha
    rcases List.mem_append.1 ha with ha | ha
    · exact hP a ha
    · rwa [List.mem_singleton.1 ha]
  have hvalue : o.value ∈ o.history := List.mem_of_getLast? h.last
  rw [RunOutcome.record]
  split_ifs with heq hallows
  · -- The diagnosis is told once more.
    exact ⟨hold h.mem, hall h.max (heq ▸ le_rfl), h.rising, h.last, hsub,
      fun p hp => (h.refused p hp).imp_right (And.imp_left hold),
      hall h.accounted (.inl (heq ▸ hvalue))⟩
  · have hlt := allows_runOutcome.1 hallows
    refine ⟨hnew, hall (fun a ha => (h.max a ha).trans hlt.le) le_rfl, ?_, by simp, ?_, ?_, ?_⟩
    · refine List.pairwise_append.2 ⟨h.rising, List.pairwise_singleton _ _, fun a ha b hb => ?_⟩
      rw [List.mem_singleton.1 hb]
      exact (h.rank_le ha).trans_lt hlt
    · exact h.history.append (List.Sublist.refl [r])
    · intro p hp
      obtain ⟨hp₁, hp₂, hp₃⟩ := h.refused p hp
      exact ⟨List.mem_append_left _ hp₁, hold hp₂, hp₃⟩
    · refine hall (fun a ha => (h.accounted a ha).imp_left (List.mem_append_left _)) (.inl ?_)
      exact List.mem_append_right _ (List.mem_singleton_self r)
  · have hle : r.rank ≤ o.value.rank := not_lt.1 (mt allows_runOutcome.2 hallows)
    have hlt : r.rank < o.value.rank :=
      hle.lt_of_ne fun hrank => heq (StopReason.rank_injective hrank)
    refine ⟨hold h.mem, hall h.max hle, h.rising, h.last, hsub, ?_, ?_⟩
    · intro p hp
      rcases List.mem_append.1 hp with hp | hp
      · exact (h.refused p hp).imp_right (And.imp_left hold)
      · obtain rfl := List.mem_singleton.1 hp
        exact ⟨hvalue, hnew, hlt⟩
    · refine hall (fun a ha => ?_)
        (.inr ⟨_, List.mem_append_right _ (List.mem_singleton_self _), rfl⟩)
      exact (h.accounted a ha).imp_right fun ⟨p, hp, hpr⟩ => ⟨p, List.mem_append_left _ hp, hpr⟩

theorem Tells.recordAll (h : o.Tells reasons) (more : List StopReason) :
    (o.recordAll more).Tells (reasons ++ more) := by
  induction more generalizing o reasons with
  | nil => rwa [List.append_nil]
  | cons r more ih =>
    have hrest := ih (h.record r)
    rwa [List.append_assoc, List.singleton_append] at hrest

/-- **The outcome of a run** is the most severe reason it was given. The diagnoses on the way rise
in severity, a reason is refused only below the diagnosis of its time, and every reason is in the
one list or the other. -/
theorem recordAll_spec (initial : StopReason) (reasons : List StopReason) :
    (recordAll { value := initial } reasons).Tells (initial :: reasons) :=
  (tells_init initial).recordAll reasons

/-- **Cause before symptom.** Whatever the order in which the reasons arrive, the outcome is the
same, and it is a failure when one of the reasons is. -/
theorem value_recordAll_perm (initial : StopReason) {reasons reasons' : List StopReason}
    (h : reasons.Perm reasons') :
    (recordAll { value := initial } reasons).value =
      (recordAll { value := initial } reasons').value ∧
      ((∃ r ∈ initial :: reasons, r ∈ outcomeFailures) →
        (recordAll { value := initial } reasons').failed = true) := by
  have hmem {r : StopReason} : r ∈ initial :: reasons ↔ r ∈ initial :: reasons' :=
    (h.cons initial).mem_iff
  have hspec := (tells_init initial).recordAll reasons
  have hspec' := (tells_init initial).recordAll reasons'
  constructor
  · refine StopReason.rank_injective (le_antisymm ?_ ?_)
    · exact hspec'.max _ (hmem.1 hspec.mem)
    · exact hspec.max _ (hmem.2 hspec'.mem)
  · rintro ⟨r, hr, hfailure⟩
    rw [failed, decide_eq_true_eq, mem_outcomeFailures]
    exact (mem_outcomeFailures.1 hfailure).trans (hspec'.max r (hmem.1 hr))

end RunOutcome

/-! ### The phase -/

/-- The phases of a run. -/
inductive RunPhase
  | starting
  | reconciling
  | recovering
  | snapshotting
  | streaming
  | draining
  | stopping
  | stopped
  | failed
deriving DecidableEq

namespace RunPhase

/-- `_ANY_PHASE_CAN_FAIL`. -/
def anyPhaseCanFail : List RunPhase :=
  [starting, reconciling, recovering, snapshotting, streaming, draining, stopping]

/-- The states of `RUN_PHASE`. -/
def states : List RunPhase := anyPhaseCanFail ++ [stopped, failed]

/-- The edges of `RUN_PHASE`. -/
def edges : List (RunPhase × RunPhase) :=
  [(starting, recovering), (starting, reconciling), (reconciling, recovering),
    (recovering, reconciling), (reconciling, snapshotting), (reconciling, streaming),
    (streaming, snapshotting), (snapshotting, streaming), (streaming, draining),
    (draining, stopping)] ++
  anyPhaseCanFail.map (·, stopping) ++ anyPhaseCanFail.map (·, failed) ++ [(stopping, stopped)]

theorem mem_states (p : RunPhase) : p ∈ states := by cases p <;> simp [states, anyPhaseCanFail]

end RunPhase

/-- `RUN_PHASE`. -/
def runPhase : Machine RunPhase where
  states := RunPhase.states
  edges := RunPhase.edges
  terminal := [.stopped, .failed]
  initialStates := [.starting]
  states_nodup := by decide
  edges_subset e _ := ⟨RunPhase.mem_states e.1, RunPhase.mem_states e.2⟩
  terminal_subset p _ := RunPhase.mem_states p
  initial_nodup := List.nodup_singleton _
  initial_subset p _ := RunPhase.mem_states p

/-- `run_state.RunPhaseWriter`, without its sink. -/
structure PhaseWriter where
  phase : RunPhase := .starting
  transitions : List RunPhase := [.starting]
  outcome : RunOutcome := {}

/-- A call on the writer or on its outcome. -/
inductive PhaseCall
  | to' (phase : RunPhase)
  | ensure (phase : RunPhase)
  | record (reason : StopReason)
  | finish (ok : Bool) (reason : Option StopReason)

namespace PhaseWriter

/-- `to`. -/
def to' (w : PhaseWriter) (phase : RunPhase) : Except (IllegalTransition RunPhase) PhaseWriter := do
  runPhase.check w.phase phase
  return { w with phase := phase, transitions := w.transitions ++ [phase] }

/-- `ensure`. -/
def ensure (w : PhaseWriter) (phase : RunPhase) :
    Except (IllegalTransition RunPhase) PhaseWriter :=
  if w.phase = phase then .ok w else w.to' phase

/-- The terminal phase that `finish` chooses. -/
def lastPhase (w : PhaseWriter) (ok : Bool) : RunPhase :=
  if ok && runPhase.allows w.phase .stopped then .stopped else .failed

/-- `finish`. -/
def finish (w : PhaseWriter) (ok : Bool) (reason : Option StopReason) : PhaseWriter :=
  let w := { w with outcome := reason.elim w.outcome w.outcome.record }
  if runPhase.isTerminal w.phase then w
  else (w.to' (w.lastPhase ok)).toOption.getD w

/-- The writer after a call, which may raise. -/
def call (w : PhaseWriter) : PhaseCall → PhaseWriter
  | .to' phase => (w.to' phase).toOption.getD w
  | .ensure phase => (w.ensure phase).toOption.getD w
  | .record reason => { w with outcome := w.outcome.record reason }
  | .finish ok reason => w.finish ok reason

/-- The writer after several calls. -/
def run (w : PhaseWriter) (calls : List PhaseCall) : PhaseWriter := calls.foldl call w

/-- What a call does to the phases: nothing, or one declared transition. -/
inductive Moves (w w' : PhaseWriter) : Prop
  | stays (hphase : w'.phase = w.phase) (htransitions : w'.transitions = w.transitions)
  | goes (hedge : (w.phase, w'.phase) ∈ runPhase.edges)
      (htransitions : w'.transitions = w.transitions ++ [w'.phase])

variable {w : PhaseWriter}

theorem moves_to (phase : RunPhase) : Moves w ((w.to' phase).toOption.getD w) := by
  rw [to', Machine.check]
  split_ifs with hedge
  · exact .goes hedge rfl
  · exact .stays rfl rfl

theorem moves_call (c : PhaseCall) : Moves w (w.call c) := by
  cases c with
  | to' phase => exact moves_to phase
  | ensure phase =>
    rw [call, ensure]
    split_ifs
    · exact .stays rfl rfl
    · exact moves_to phase
  | record reason => exact .stays rfl rfl
  | finish ok reason =>
    rw [call, finish]
    dsimp only
    split_ifs
    · exact .stays rfl rfl
    · cases moves_to (w := { w with outcome := reason.elim w.outcome w.outcome.record })
        (lastPhase _ ok) with
      | stays hphase htransitions => exact .stays hphase htransitions
      | goes hedge htransitions => exact .goes hedge htransitions

/-- A terminal phase is left by no edge. -/
theorem not_edge_of_terminal {a b : RunPhase} (ha : a ∈ runPhase.terminal) :
    (a, b) ∉ runPhase.edges := by
  have h : ∀ e ∈ RunPhase.edges, e.1 ∉ [RunPhase.stopped, .failed] := by decide
  exact fun hedge => h _ hedge ha

/-- Every other phase can fail. -/
theorem edge_failed {a : RunPhase} (ha : a ∉ runPhase.terminal) :
    (a, .failed) ∈ runPhase.edges := by
  cases a <;> simp_all [runPhase, RunPhase.edges, RunPhase.anyPhaseCanFail]

/-- Only `stopping` leads to `stopped`. -/
theorem eq_stopping {a : RunPhase} (h : (a, .stopped) ∈ runPhase.edges) : a = .stopping := by
  have hall : ∀ e ∈ RunPhase.edges, e.2 = .stopped → e.1 = .stopping := by decide
  exact hall _ h rfl

theorem edge_lastPhase (ok : Bool) (hw : w.phase ∉ runPhase.terminal) :
    (w.phase, w.lastPhase ok) ∈ runPhase.edges := by
  rw [lastPhase]
  split_ifs with h
  · rw [Bool.and_eq_true, Machine.allows_iff] at h
    exact h.2
  · exact edge_failed hw

theorem lastPhase_mem {ok : Bool} : w.lastPhase ok ∈ runPhase.terminal := by
  rw [lastPhase]
  split_ifs <;> simp [runPhase]

/-- `finish` ends in a terminal phase, whatever the phase before. -/
theorem finish_mem (ok : Bool) (reason : Option StopReason) :
    (w.finish ok reason).phase ∈ runPhase.terminal := by
  rw [finish]
  dsimp only
  split_ifs with hterminal
  · simpa [Machine.isTerminal] using hterminal
  · have hedge := edge_lastPhase (w := { w with outcome := reason.elim w.outcome w.outcome.record })
      ok (by simpa [Machine.isTerminal] using hterminal)
    rw [to', Machine.check, if_pos hedge]
    exact lastPhase_mem

/-- A terminal phase is for good. -/
theorem call_of_terminal (hw : w.phase ∈ runPhase.terminal) (c : PhaseCall) :
    (w.call c).phase = w.phase ∧ (w.call c).transitions = w.transitions := by
  cases moves_call (w := w) c with
  | stays hphase htransitions => exact ⟨hphase, htransitions⟩
  | goes hedge => exact absurd hedge (not_edge_of_terminal hw)

theorem run_of_terminal (hw : w.phase ∈ runPhase.terminal) (calls : List PhaseCall) :
    (w.run calls).phase = w.phase ∧ (w.run calls).transitions = w.transitions := by
  induction calls generalizing w with
  | nil => exact ⟨rfl, rfl⟩
  | cons c calls ih =>
    obtain ⟨hphase, htransitions⟩ := call_of_terminal hw c
    obtain ⟨hphase', htransitions'⟩ := ih (hphase ▸ hw)
    exact ⟨hphase'.trans hphase, htransitions'.trans htransitions⟩

/-- What the transitions of a writer tell. -/
structure Told (w : PhaseWriter) : Prop where
  path : w.transitions.IsChain fun a b => (a, b) ∈ runPhase.edges
  head : w.transitions.head? = some .starting
  last : w.transitions.getLast? = some w.phase

theorem told_init : Told {} := ⟨List.isChain_singleton _, rfl, rfl⟩

theorem Told.moves (h : w.Told) {w' : PhaseWriter} (hmoves : Moves w w') : w'.Told := by
  cases hmoves with
  | stays hphase htransitions =>
    exact ⟨htransitions ▸ h.path, htransitions ▸ h.head, by rw [htransitions, hphase, h.last]⟩
  | goes hedge htransitions =>
    refine ⟨?_, ?_, by rw [htransitions, List.getLast?_concat]⟩
    · rw [htransitions, List.isChain_append]
      refine ⟨h.path, List.isChain_singleton _, fun a ha b hb => ?_⟩
      rw [h.last, Option.mem_def, Option.some.injEq] at ha
      obtain rfl : w'.phase = b := by simpa using hb
      exact ha ▸ hedge
    · rw [htransitions, List.head?_append, h.head]
      rfl

theorem Told.run (h : w.Told) (calls : List PhaseCall) : (w.run calls).Told := by
  induction calls generalizing w with
  | nil => exact h
  | cons c calls ih => exact ih (h.moves (moves_call c))

/-- **The phases of a run.** Whatever is called, also out of order: the transitions are a path of
declared edges from `starting` to the phase, `stopped` comes right after `stopping`, and after
`finish` the phase is terminal and nothing changes it. -/
theorem phases_of_run (before after : List PhaseCall) (ok : Bool) (reason : Option StopReason) :
    Told (run {} before) ∧
      (∀ l, (run {} before).transitions = l ++ [.stopped] → ∃ l', l = l' ++ [.stopping]) ∧
      (run {} (before ++ .finish ok reason :: after)).phase ∈ runPhase.terminal ∧
      (run {} (before ++ .finish ok reason :: after)).transitions =
        (run {} (before ++ [.finish ok reason])).transitions := by
  have htold := told_init.run before
  have hsplit : run {} (before ++ .finish ok reason :: after) =
      ((run {} before).finish ok reason).run after := List.foldl_append
  have hfinish : run {} (before ++ [.finish ok reason]) = (run {} before).finish ok reason :=
    List.foldl_append
  obtain ⟨hphase, htransitions⟩ :=
    run_of_terminal (finish_mem (w := run {} before) ok reason) after
  refine ⟨htold, fun l hl => ?_, ?_, ?_⟩
  · obtain rfl | ⟨l', a, rfl⟩ := l.eq_nil_or_concat
    · have hhead := htold.head
      rw [hl] at hhead
      cases hhead
    · have hpath := htold.path
      rw [hl, List.isChain_append] at hpath
      rw [List.concat_eq_append] at hpath ⊢
      exact ⟨l', by rw [eq_stopping (hpath.2.2 a (by simp) .stopped rfl)]⟩
  · rw [hsplit, hphase]
    exact finish_mem ok reason
  · rw [hsplit, hfinish, htransitions]

end PhaseWriter

end CdcFlight
