import CdcFlight.Lib.Journal

/-!
# May the run stop yet

`completion_watermark.CompletionWatermark`: the supervisor asks once a tick whether the run has a
completed delivery that it can prove. Either a marker was written to the source and the destination
is durably past its position, or the source cannot be marked and a quiet window is confirmed by it.
A tick holds what the handler, the health sampler and the source answer during the call; the answers
of different ticks have nothing to do with each other, except that the time since the start of the
run does not fall.

## Main definitions

* `CdcFlight.Watermark.reached`: the question, with `CdcFlight.Watermark.quietWindow`.
* `CdcFlight.VerdictSound`: what the answers are to promise.
* `CdcFlight.Watermark.SkipsConditions`: a tick that finds the position reached, but may not stop.

## Main results

* `CdcFlight.verdictSound_iff`: the answers are sound when no tick skips the conditions, and only
  then.
-/

namespace CdcFlight

open Lib

/-! ### The question -/

/-- `COMPLETION_WATERMARK`. -/
inductive WatermarkState
  | unarmed
  | armed
  | reached
  | unavailable
deriving DecidableEq, Repr

/-- The edges of `COMPLETION_WATERMARK`. -/
def WatermarkState.Declared : WatermarkState → WatermarkState → Prop
  | .unarmed, .armed => True
  | .unarmed, .unavailable => True
  | .armed, .reached => True
  | _, _ => False

/-- `SourceHealth`, as far as it is fixed during a run. -/
structure HealthRoute where
  /-- `source_write_dsn` or `primary_dsn` is there. -/
  writable : Bool
  interval : Option ℚ

/-- What a `CompletionWatermark` is made of. -/
structure CompletionRun where
  minRecords : ℕ
  idleSeconds : ℚ
  watermarkQuietSeconds : ℚ
  /-- There is a model of the snapshot phase. -/
  snapshotPhase : Bool
  health : Option HealthRoute
  /-- Whether the marker is enabled, if there is one. -/
  marker : Option Bool

/-- `quiet_seconds`. -/
def CompletionRun.quietSeconds (c : CompletionRun) : ℚ :=
  max 0 (min c.watermarkQuietSeconds c.idleSeconds)

/-- What is observed during a call of `reached`. -/
structure CompletionTick where
  elapsed : ℚ
  now : ℚ
  waitingForQueuedBackfill : Bool
  recordCount : ℕ
  busy : Bool
  phaseEnded : Bool
  durableLsn : ℕ
  secondsSinceLastBatch : ℚ
  everStreamed : Bool
  /-- `may_declare_idle` for the time before a marker. -/
  quietAgreed : Bool
  /-- `emit_marker`: the position of the marker, if the source could be written to. -/
  emitted : Option ℕ
  /-- `_source_agrees`, asked a second time at the end of the window. -/
  agrees : Bool
  agreesAgain : Bool
  /-- `health.last.at`. -/
  latestAt : Option ℚ

/-- The state of a `CompletionWatermark`, and the positions of the markers in the source. -/
structure Watermark where
  state : WatermarkState := .unarmed
  targetLsn : Option ℕ := none
  arms : ℕ := 0
  idleCandidateSince : Option ℚ := none
  markers : List ℕ := []

namespace Watermark

/-- `_may_stop`. -/
def mayStop (c : CompletionRun) (t : CompletionTick) : Bool :=
  decide (c.minRecords ≤ t.recordCount) && !t.busy && (!c.snapshotPhase || t.phaseEnded)

/-- `_markable`. -/
def markable (c : CompletionRun) : Bool :=
  c.marker = some true && c.health.any HealthRoute.writable

/-- `_ready_to_arm`. -/
def readyToArm (c : CompletionRun) (t : CompletionTick) : Bool :=
  decide (c.quietSeconds ≤ t.secondsSinceLastBatch) && t.everStreamed && t.quietAgreed

/-- The candidate of the quiet window is withdrawn. -/
def withdraw (s : Watermark) : Watermark := { s with idleCandidateSince := none }

/-- `_quiet_window`. -/
def quietWindow (c : CompletionRun) (s : Watermark) (t : CompletionTick) : Watermark × Bool :=
  if t.secondsSinceLastBatch < c.idleSeconds then (s.withdraw, false)
  else if t.elapsed < min c.idleSeconds 5 then (s, false)
  else match c.health with
    | none => (s, true)
    | some health =>
      if t.agrees then
        match health.interval with
        | none => (s, true)
        | some interval =>
          match s.idleCandidateSince with
          | none => ({ s with idleCandidateSince := some t.now }, false)
          | some since =>
            if t.now - since < max (interval * 2) 1 || t.latestAt.all (· < since) then (s, false)
            else if t.agreesAgain then (s, true)
            else (s.withdraw, false)
      else (s.withdraw, false)

/-- `_arm`, with the position that it returns. -/
def arm (s : Watermark) (t : CompletionTick) : Watermark :=
  { s with targetLsn := t.emitted, markers := s.markers ++ t.emitted.toList }

/-- `reached`. -/
def reached (c : CompletionRun) (s : Watermark) (t : CompletionTick) : Watermark × Bool :=
  if t.waitingForQueuedBackfill then (s.withdraw, false)
  else if s.state = .reached then (s, true)
  else if mayStop c t then
    match s.state with
    | .armed =>
      if s.targetLsn.getD 0 ≤ t.durableLsn then ({ s with state := .reached }, true)
      else (s, false)
    | .unarmed =>
      if markable c then
        if readyToArm c t then
          let s := s.arm t
          if s.targetLsn.isSome then ({ s with arms := s.arms + 1, state := .armed }, false)
          else quietWindow c { s with state := .unavailable } t
        else (s, false)
      else quietWindow c { s with state := .unavailable } t
    | _ => quietWindow c s t
  else (s.withdraw, false)

/-- The state after the ticks of a run. -/
def after (c : CompletionRun) (ticks : List CompletionTick) : Watermark :=
  ticks.foldl (fun s t => (reached c s t).1) {}

@[simp] theorem after_append_singleton (c : CompletionRun) (ticks : List CompletionTick)
    (t : CompletionTick) : after c (ticks ++ [t]) = (reached c (after c ticks) t).1 := by
  simp [after]

/-- The position is reached, but the tick shows that the run may not stop. The answer of `reached`
is then given before the conditions are looked at. -/
def SkipsConditions (c : CompletionRun) (s : Watermark) (t : CompletionTick) : Prop :=
  s.state = .reached ∧ t.waitingForQueuedBackfill = false ∧ mayStop c t = false

end Watermark

open Watermark

/-! ### What the answers promise -/

/-- The tick satisfies the conditions, the idle window and the agreement of the source. -/
structure QuietTick (c : CompletionRun) (t : CompletionTick) : Prop where
  mayStop : mayStop c t
  idle : c.idleSeconds ≤ t.secondsSinceLastBatch
  agrees : c.health.isSome → t.agrees

/-- The promises of the answers in a run. -/
structure VerdictSound (c : CompletionRun) (ticks : List CompletionTick) : Prop where
  /-- A run stops only at a tick that satisfies the conditions. -/
  conditions : ∀ done t todo, ticks = done ++ t :: todo → (reached c (after c done) t).2 →
    t.waitingForQueuedBackfill = false ∧ mayStop c t
  /-- A position that is reached is the one of the only marker, and was durable. -/
  position : ∀ done todo, ticks = done ++ todo → (after c done).state = .reached →
    (after c done).arms = 1 ∧ ∃ lsn, (after c done).markers = [lsn] ∧
      (after c done).targetLsn = some lsn ∧
        ∃ before t between, done = before ++ t :: between ∧ (after c before).state = .armed ∧
          (after c (before ++ [t])).state = .reached ∧ lsn ≤ t.durableLsn
  /-- When the quiet window answers, all ticks since its candidate were quiet. -/
  quiet : ∀ done t todo, ticks = done ++ t :: todo → (reached c (after c done) t).2 →
    (after c (done ++ [t])).state = .unavailable →
      ∃ before since, done = before ++ since ∧ (∀ u ∈ since ++ [t], QuietTick c u) ∧
        ∀ began, (after c done).idleCandidateSince = some began →
          ∃ u, since.head? = some u ∧ u.now = began

namespace Watermark

variable {c : CompletionRun} {s : Watermark} {t : CompletionTick}

/-! ### What a tick can do -/

/-- What the quiet window can do at a tick that satisfies the conditions. -/
inductive QuietStep (c : CompletionRun) (s : Watermark) (t : CompletionTick) :
    Watermark × Bool → Prop
  | withdrawn : QuietStep c s t (s.withdraw, false)
  /-- The connector has not had its chance to start. -/
  | early (helapsed : t.elapsed < min c.idleSeconds 5) : QuietStep c s t (s, false)
  | began (hquiet : QuietTick c t) (helapsed : min c.idleSeconds 5 ≤ t.elapsed)
      (hnone : s.idleCandidateSince = none) :
      QuietStep c s t ({ s with idleCandidateSince := some t.now }, false)
  | waiting (hquiet : QuietTick c t) (helapsed : min c.idleSeconds 5 ≤ t.elapsed) (answer : Bool) :
      QuietStep c s t (s, answer)

theorem quietStep_quietWindow (hmayStop : mayStop c t) :
    QuietStep c s t (quietWindow c s t) := by
  rw [quietWindow]
  by_cases hidle : t.secondsSinceLastBatch < c.idleSeconds
  · rw [if_pos hidle]
    exact .withdrawn
  · rw [if_neg hidle]
    by_cases helapsed : t.elapsed < min c.idleSeconds 5
    · rw [if_pos helapsed]
      exact .early helapsed
    · rw [if_neg helapsed]
      have helapsed' := not_lt.1 helapsed
      cases hhealth : c.health with
      | none => exact .waiting ⟨hmayStop, not_lt.1 hidle, by simp [hhealth]⟩ helapsed' true
      | some health =>
        simp only
        by_cases hagrees : t.agrees
        · rw [if_pos hagrees]
          have hquiet : QuietTick c t := ⟨hmayStop, not_lt.1 hidle, fun _ => hagrees⟩
          cases health.interval with
          | none => exact .waiting hquiet helapsed' true
          | some interval =>
            cases hsince : s.idleCandidateSince with
            | none => exact .began hquiet helapsed' hsince
            | some since =>
              simp only
              split_ifs
              · exact .waiting hquiet helapsed' false
              · exact .waiting hquiet helapsed' true
              · exact .withdrawn
        · rw [if_neg hagrees]
          exact .withdrawn

/-- What a tick can do. -/
inductive ReachedStep (c : CompletionRun) (s : Watermark) (t : CompletionTick) :
    Watermark × Bool → Prop
  | withdrawn : ReachedStep c s t (s.withdraw, false)
  | stopped (hwait : t.waitingForQueuedBackfill = false) (hstate : s.state = .reached) :
      ReachedStep c s t (s, true)
  | pending (hstate : s.state = .armed ∨ s.state = .unarmed) : ReachedStep c s t (s, false)
  | arrived (hwait : t.waitingForQueuedBackfill = false) (hmayStop : mayStop c t)
      (hstate : s.state = .armed) (hdurable : s.targetLsn.getD 0 ≤ t.durableLsn) :
      ReachedStep c s t ({ s with state := .reached }, true)
  | armed (hstate : s.state = .unarmed) (lsn : ℕ) :
      ReachedStep c s t ({ s with
        state := .armed, targetLsn := some lsn, arms := s.arms + 1, markers := s.markers ++ [lsn] },
        false)
  | fallback (hwait : t.waitingForQueuedBackfill = false) (hmayStop : mayStop c t)
      (s' : Watermark) (hstate : s.state = .unarmed ∨ s.state = .unavailable)
      (hstate' : s'.state = .unavailable)
      (hcandidate : s'.idleCandidateSince = s.idleCandidateSince)
      (result : Watermark × Bool) (hresult : QuietStep c s' t result) : ReachedStep c s t result

theorem reachedStep_reached (c : CompletionRun) (s : Watermark) (t : CompletionTick) :
    ReachedStep c s t (reached c s t) := by
  rw [reached]
  by_cases hwait : t.waitingForQueuedBackfill
  · rw [if_pos hwait]
    exact .withdrawn
  · have hwait' : t.waitingForQueuedBackfill = false := by simpa using hwait
    rw [if_neg hwait]
    by_cases hstate : s.state = .reached
    · rw [if_pos hstate]
      exact .stopped hwait' hstate
    · rw [if_neg hstate]
      by_cases hmayStop : mayStop c t
      · rw [if_pos hmayStop]
        cases hs : s.state with
        | reached => exact absurd hs hstate
        | armed =>
          simp only
          by_cases hdurable : s.targetLsn.getD 0 ≤ t.durableLsn
          · rw [if_pos hdurable]
            exact .arrived hwait' hmayStop hs hdurable
          · rw [if_neg hdurable]
            exact .pending (Or.inl hs)
        | unavailable =>
          exact .fallback hwait' hmayStop s (Or.inr hs) hs rfl _ (quietStep_quietWindow hmayStop)
        | unarmed =>
          simp only
          by_cases hmarkable : markable c
          · rw [if_pos hmarkable]
            by_cases hready : readyToArm c t
            · rw [if_pos hready]
              cases hemitted : t.emitted with
              | some lsn => simpa [arm, hemitted] using ReachedStep.armed hs lsn
              | none =>
                simp only [arm, hemitted, Option.isSome_none, Bool.false_eq_true, if_false]
                exact .fallback hwait' hmayStop
                  { s with
                    state := .unavailable
                    targetLsn := none
                    markers := s.markers ++ (none : Option ℕ).toList }
                  (Or.inl hs) rfl rfl _ (quietStep_quietWindow hmayStop)
            · rw [if_neg hready]
              exact .pending (Or.inr hs)
          · rw [if_neg hmarkable]
            exact .fallback hwait' hmayStop { s with state := .unavailable } (Or.inl hs) rfl rfl _
              (quietStep_quietWindow hmayStop)
      · rw [if_neg hmayStop]
        exact .withdrawn

/-! ### What every run preserves -/

/-- What is known of the state after the ticks of a run. -/
structure Traced (c : CompletionRun) (ticks : List CompletionTick) : Prop where
  unarmed : (after c ticks).state = .unarmed →
    (after c ticks).arms = 0 ∧ (after c ticks).markers = []
  taken : (after c ticks).state = .armed ∨ (after c ticks).state = .reached →
    (after c ticks).arms = 1 ∧ ∃ lsn, (after c ticks).markers = [lsn] ∧
      (after c ticks).targetLsn = some lsn
  durable : (after c ticks).state = .reached →
    ∃ before t between, ticks = before ++ t :: between ∧ (after c before).state = .armed ∧
      (after c (before ++ [t])).state = .reached ∧
        ∀ lsn, (after c ticks).targetLsn = some lsn → lsn ≤ t.durableLsn
  /-- The ticks since the candidate began are quiet, and the connector has had its chance. -/
  candidate : ∀ began, (after c ticks).idleCandidateSince = some began →
    (after c ticks).state = .unavailable ∧
      ∃ before u since, ticks = before ++ u :: since ∧ u.now = began ∧
        min c.idleSeconds 5 ≤ u.elapsed ∧ ∀ v ∈ u :: since, QuietTick c v

/-- The quiet ticks go on. -/
theorem exists_since_append {ticks : List CompletionTick} {began : ℚ}
    (hquiet : QuietTick c t)
    (h : ∃ before u since, ticks = before ++ u :: since ∧ u.now = began ∧
      min c.idleSeconds 5 ≤ u.elapsed ∧ ∀ v ∈ u :: since, QuietTick c v) :
    ∃ before u since, ticks ++ [t] = before ++ u :: since ∧ u.now = began ∧
      min c.idleSeconds 5 ≤ u.elapsed ∧ ∀ v ∈ u :: since, QuietTick c v := by
  obtain ⟨before, u, since, rfl, hnow, helapsed, hsince⟩ := h
  refine ⟨before, u, since ++ [t], by simp, hnow, helapsed, ?_⟩
  rw [← List.cons_append]
  intro v hv
  rcases List.mem_append.1 hv with hold | hnew
  · exact hsince v hold
  · rwa [List.mem_singleton.1 hnew]

/-- The candidate after a tick of the quiet window. -/
theorem QuietStep.candidate {s' : Watermark} {ticks : List CompletionTick}
    {result : Watermark × Bool} (hstep : QuietStep c s' t result)
    (hsorted : ∀ u ∈ ticks, u.elapsed ≤ t.elapsed)
    (h : ∀ began, s'.idleCandidateSince = some began →
      ∃ before u since, ticks = before ++ u :: since ∧ u.now = began ∧
        min c.idleSeconds 5 ≤ u.elapsed ∧ ∀ v ∈ u :: since, QuietTick c v)
    (began : ℚ) (hbegan : result.1.idleCandidateSince = some began) :
    ∃ before u since, ticks ++ [t] = before ++ u :: since ∧ u.now = began ∧
      min c.idleSeconds 5 ≤ u.elapsed ∧ ∀ v ∈ u :: since, QuietTick c v := by
  cases hstep with
  | withdrawn => exact absurd hbegan (by simp [withdraw])
  | early helapsed =>
    -- a candidate begins when the connector has had its chance, and time does not fall
    obtain ⟨before, u, since, rfl, -, hu, -⟩ := h began hbegan
    have hle := hsorted u (by simp)
    exact absurd (hu.trans hle) (not_le.2 helapsed)
  | began hquiet helapsed _ =>
    refine ⟨ticks, t, [], rfl, Option.some.inj hbegan, helapsed, fun v hv => ?_⟩
    rwa [List.mem_singleton.1 hv]
  | waiting hquiet _ answer => exact exists_since_append hquiet (h began hbegan)

theorem Traced.step {ticks : List CompletionTick} (h : Traced c ticks)
    (hsorted : ∀ u ∈ ticks, u.elapsed ≤ t.elapsed) : Traced c (ticks ++ [t]) := by
  have hstep := reachedStep_reached c (after c ticks) t
  have hafter := after_append_singleton c ticks t
  generalize reached c (after c ticks) t = result at hstep hafter
  have hnocandidate (hstate : (after c ticks).state ≠ .unavailable) :
      (after c ticks).idleCandidateSince = none := by
    by_contra hsome
    obtain ⟨began, hbegan⟩ := Option.ne_none_iff_exists'.1 hsome
    exact hstate (h.candidate began hbegan).1
  have hdurable (hstate : (after c ticks).state = .reached)
      (htarget : result.1.targetLsn = (after c ticks).targetLsn) :
      ∃ before u between, ticks ++ [t] = before ++ u :: between ∧
        (after c before).state = .armed ∧ (after c (before ++ [u])).state = .reached ∧
          ∀ lsn, result.1.targetLsn = some lsn → lsn ≤ u.durableLsn := by
    obtain ⟨before, u, between, hticks, harmed, hreached, hle⟩ := h.durable hstate
    refine ⟨before, u, between ++ [t], by simp [hticks], harmed, hreached, ?_⟩
    rw [htarget]
    exact hle
  cases hstep with
  | withdrawn =>
    exact
      { unarmed := by rw [hafter]; exact h.unarmed
        taken := by rw [hafter]; exact h.taken
        durable := by rw [hafter]; exact fun hs => hdurable hs rfl
        candidate := by rw [hafter]; simp [withdraw] }
  | stopped _ hstate =>
    exact
      { unarmed := by rw [hafter]; exact h.unarmed
        taken := by rw [hafter]; exact h.taken
        durable := by rw [hafter]; exact fun hs => hdurable hs rfl
        candidate := by rw [hafter, hnocandidate (by simp [hstate])]; simp }
  | pending hstate =>
    exact
      { unarmed := by rw [hafter]; exact h.unarmed
        taken := by rw [hafter]; exact h.taken
        durable := by rw [hafter]; exact fun hs => hdurable hs rfl
        candidate := by
          rw [hafter, hnocandidate (by rcases hstate with hs | hs <;> simp [hs])]
          simp }
  | arrived _ _ hstate hle =>
    obtain ⟨harms, lsn, hmarkers, htarget⟩ := h.taken (Or.inl hstate)
    exact
      { unarmed := by rw [hafter]; simp
        taken := by rw [hafter]; exact fun _ => ⟨harms, lsn, hmarkers, htarget⟩
        durable := by
          intro _
          refine ⟨ticks, t, [], rfl, hstate, by rw [hafter], ?_⟩
          rw [hafter]
          intro lsn' hlsn'
          have htarget' : (after c ticks).targetLsn = some lsn' := hlsn'
          simpa [htarget'] using hle
        candidate := by rw [hafter, hnocandidate (by simp [hstate])]; simp }
  | armed hstate lsn =>
    obtain ⟨harms, hmarkers⟩ := h.unarmed hstate
    exact
      { unarmed := by rw [hafter]; simp
        taken := by rw [hafter]; simp [harms, hmarkers]
        durable := by rw [hafter]; simp
        candidate := by rw [hafter, hnocandidate (by simp [hstate])]; simp }
  | fallback _ _ s' hstate hstate' hcandidate _ hquiet =>
    have hunavailable : result.1.state = .unavailable := by
      cases hquiet <;> exact hstate'
    exact
      { unarmed := by rw [hafter, hunavailable]; simp
        taken := by rw [hafter, hunavailable]; simp
        durable := by rw [hafter, hunavailable]; simp
        candidate := by
          rw [hafter]
          rintro began hbegan
          refine ⟨hunavailable, hquiet.candidate hsorted (fun began' hbegan' => ?_) began hbegan⟩
          exact (h.candidate began' (hcandidate ▸ hbegan')).2 }

theorem traced_after {ticks : List CompletionTick}
    (hsorted : ticks.Pairwise fun u v => u.elapsed ≤ v.elapsed) : Traced c ticks := by
  induction ticks using List.reverseRecOn with
  | nil => exact ⟨by simp [after], by simp [after], by simp [after], by simp [after]⟩
  | append_singleton ticks t ih =>
    rw [List.pairwise_append] at hsorted
    exact (ih hsorted.1).step fun u hu => hsorted.2.2 u hu t (by simp)

/-- A tick that answers that the run may stop satisfies the conditions, unless it skips them. -/
theorem conditions_of_answer (hskips : ¬ SkipsConditions c s t) (hanswer : (reached c s t).2) :
    t.waitingForQueuedBackfill = false ∧ mayStop c t := by
  have hstep := reachedStep_reached c s t
  generalize reached c s t = result at hstep hanswer
  cases hstep with
  | withdrawn => simp at hanswer
  | stopped hwait hstate =>
    refine ⟨hwait, ?_⟩
    by_contra hmayStop
    exact hskips ⟨hstate, hwait, by simpa using hmayStop⟩
  | pending => simp at hanswer
  | arrived hwait hmayStop => exact ⟨hwait, hmayStop⟩
  | armed => simp at hanswer
  | fallback hwait hmayStop => exact ⟨hwait, hmayStop⟩

/-- An answer of the quiet window comes after quiet ticks. -/
theorem Traced.quiet {ticks : List CompletionTick} (h : Traced c ticks)
    (hanswer : (reached c (after c ticks) t).2)
    (hstate : (reached c (after c ticks) t).1.state = .unavailable) :
    ∃ before since, ticks = before ++ since ∧ (∀ u ∈ since ++ [t], QuietTick c u) ∧
      ∀ began, (after c ticks).idleCandidateSince = some began →
        ∃ u, since.head? = some u ∧ u.now = began := by
  have hstep := reachedStep_reached c (after c ticks) t
  generalize reached c (after c ticks) t = result at hstep hanswer hstate
  have hquiet : QuietTick c t := by
    cases hstep with
    | withdrawn => simp at hanswer
    | stopped _ hreached => simp [hreached] at hstate
    | pending => simp at hanswer
    | arrived => simp at hstate
    | armed => simp at hanswer
    | fallback _ _ s' _ _ _ _ hresult =>
      cases hresult with
      | waiting hquiet => exact hquiet
      | withdrawn => simp at hanswer
      | early => simp at hanswer
      | began => simp at hanswer
  cases hcandidate : (after c ticks).idleCandidateSince with
  | none => exact ⟨ticks, [], by simp, by simpa using hquiet, by simp⟩
  | some began =>
    obtain ⟨before, u, since, hticks, hnow, -, hsince⟩ := (h.candidate began hcandidate).2
    refine ⟨before, u :: since, hticks, fun v hv => ?_, fun began' hbegan' => ?_⟩
    · rcases List.mem_append.1 hv with hold | hnew
      · exact hsince v hold
      · rwa [List.mem_singleton.1 hnew]
    · exact ⟨u, rfl, hnow.trans (Option.some.inj hbegan')⟩

end Watermark

/-- In every run the answers are sound, if and only if no tick of it finds the position reached
while the run may not stop. -/
theorem verdictSound_iff (c : CompletionRun) (ticks : List CompletionTick)
    (hsorted : ticks.Pairwise fun u v => u.elapsed ≤ v.elapsed) :
    VerdictSound c ticks ↔
      EachAfter (fun done t => ¬ SkipsConditions c (after c done) t) ticks := by
  have htraced {done todo : List CompletionTick} (h : ticks = done ++ todo) : Traced c done :=
    traced_after (hsorted.sublist (by simp [h]))
  constructor
  · rintro hsound done t todo hticks ⟨hstate, hwait, hmayStop⟩
    have hanswer : (reached c (after c done) t).2 := by simp [reached, hwait, hstate]
    have hconditions := (hsound.conditions done t todo hticks hanswer).2
    rw [hmayStop] at hconditions
    simp at hconditions
  · intro hskips
    refine ⟨fun done t todo hticks => conditions_of_answer (hskips done t todo hticks), ?_, ?_⟩
    · intro done todo hticks hstate
      obtain ⟨harms, lsn, hmarkers, htarget⟩ := (htraced hticks).taken (Or.inr hstate)
      obtain ⟨before, t, between, hdone, harmed, hreached, hle⟩ := (htraced hticks).durable hstate
      exact ⟨harms, lsn, hmarkers, htarget, before, t, between, hdone, harmed, hreached,
        hle lsn htarget⟩
    · intro done t todo hticks hanswer hstate
      rw [after_append_singleton] at hstate
      exact (htraced hticks).quiet hanswer hstate

/-! ### A run that is asked again -/

namespace Accounts

/-- A streaming run whose source can be marked. -/
def streamingRun : CompletionRun where
  minRecords := 0
  idleSeconds := 20
  watermarkQuietSeconds := 1 / 2
  snapshotPhase := false
  health := some { writable := true, interval := some 1 }
  marker := some true

/-- A quiet tick, at which the source gives the position 100 to a marker. -/
def quietTick (elapsed : ℚ) (durableLsn : ℕ) (busy : Bool) : CompletionTick where
  elapsed := elapsed
  now := elapsed
  waitingForQueuedBackfill := false
  recordCount := 10
  busy := busy
  phaseEnded := true
  durableLsn := durableLsn
  secondsSinceLastBatch := 2
  everStreamed := true
  quietAgreed := true
  emitted := some 100
  agrees := true
  agreesAgain := true
  latestAt := some elapsed

/-- The position is reached at the second tick; the run is kept open and asked again. -/
def drainedRun (busy : Bool) : List CompletionTick :=
  [quietTick 10 90 false, quietTick 11 100 false, quietTick 12 100 busy]

theorem verdictSound_drainedRun : VerdictSound streamingRun (drainedRun false) := by
  refine (verdictSound_iff streamingRun (drainedRun false) ?_).2 ?_
  · norm_num [drainedRun, quietTick]
  · rintro done t todo hticks ⟨-, -, hmayStop⟩
    have ht : t ∈ drainedRun false := by simp [hticks]
    simp only [drainedRun, List.mem_cons, List.not_mem_nil, or_false] at ht
    rcases ht with rfl | rfl | rfl <;> simp [mayStop, streamingRun, quietTick] at hmayStop

/-- The third answer is given while the applier is busy. -/
theorem not_verdictSound_drainedRun : ¬ VerdictSound streamingRun (drainedRun true) := by
  intro hsound
  have hanswer : (reached streamingRun (after streamingRun (drainedRun true).dropLast)
      (quietTick 12 100 true)).2 = true := by
    decide +kernel
  have hconditions := (hsound.conditions _ _ [] rfl hanswer).2
  simp [mayStop, quietTick] at hconditions

end Accounts

end CdcFlight
