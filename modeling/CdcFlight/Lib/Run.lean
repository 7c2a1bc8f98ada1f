import Mathlib

/-!
# Runs of labelled steps and of fallible programs

A specification is a relation `step s a t` between states, labelled by the action taken. An
implementation is a program on its own states that may raise: `EStateM ε σ α`, which keeps the
state it had reached when it raised, or `Except ε α` when it has no state of its own. The rules
below invert a successful or failed run of a composed program, carry an invariant through a loop,
and relate an implementation run to a specification run step by step.

## Main definitions

* `Lib.Trace`: a run of a labelled step relation.

## Main results

* `Lib.run_bind_eq_ok`, `Lib.run_bind_eq_error`: inversion of a bind of stateful programs.
* `Lib.except_bind_eq_ok`: inversion of a successful bind of stateless programs.
* `Lib.Trace.invariant`: an invariant of the step relation along a whole run.
* `Lib.Trace.crossing`: the step of a run in which something came about.
* `Lib.Trace.simulate`: when every successful implementation step keeps the simulation relation, a
  successful loop ends related to the end of the specification run.
* `Lib.Trace.refine`: when moreover related steps cannot raise, the loop succeeds.
-/

namespace Lib

universe u v w x

/-! ### Stateful programs -/

section Stateful

variable {ε σ : Type u} {α β : Type u}

/-- A bind succeeds exactly when its parts do, one after the other. -/
theorem run_bind_eq_ok {m : EStateM ε σ α} {f : α → EStateM ε σ β} {s t : σ} {b : β} :
    (m >>= f).run s = .ok b t ↔ ∃ a r, m.run s = .ok a r ∧ (f a).run r = .ok b t := by
  rw [EStateM.run_bind]
  cases m.run s with
  | ok a r => simp
  | error e r => simp

/-- A bind raises exactly when its first part does, or its second part after the first. -/
theorem run_bind_eq_error {m : EStateM ε σ α} {f : α → EStateM ε σ β} {s t : σ} {e : ε} :
    (m >>= f).run s = .error e t ↔
      m.run s = .error e t ∨ ∃ a r, m.run s = .ok a r ∧ (f a).run r = .error e t := by
  rw [EStateM.run_bind]
  cases m.run s with
  | ok a r => simp
  | error e' r => simp

/-- A bind whose first part is known to succeed. -/
theorem run_bind_of_ok {m : EStateM ε σ α} {f : α → EStateM ε σ β} {s r : σ} {a : α}
    (h : m.run s = .ok a r) : (m >>= f).run s = (f a).run r := by
  rw [EStateM.run_bind, h]

@[simp] theorem run_throw (e : ε) (s : σ) :
    (throw e : EStateM ε σ α).run s = .error e s := rfl

end Stateful

/-! ### Stateless programs -/

section Stateless

variable {ε : Type u} {α β : Type v}

theorem except_bind_eq_ok {m : Except ε α} {f : α → Except ε β} {b : β} :
    (m >>= f) = .ok b ↔ ∃ a, m = .ok a ∧ f a = .ok b := by
  cases m with
  | error e => simp [bind, Except.bind]
  | ok a => simp [bind, Except.bind]

theorem except_map_eq_ok {m : Except ε α} {f : α → β} {b : β} :
    m.map f = .ok b ↔ ∃ a, m = .ok a ∧ f a = b := by
  cases m with
  | error e => simp [Except.map]
  | ok a => simp [Except.map]

theorem except_pure_eq_ok {a b : α} : (pure a : Except ε α) = .ok b ↔ a = b := by
  simp [pure, Except.pure]

end Stateless

/-! ### Runs of a labelled step relation -/

variable {σ : Type u} {α : Type v}

/-- A run of the step relation `step` from one state to another, with the list of actions
taken. -/
inductive Trace (step : σ → α → σ → Prop) : σ → List α → σ → Prop
  | nil (s : σ) : Trace step s [] s
  | cons {s t r : σ} {a : α} {l : List α} (h : step s a t) (hl : Trace step t l r) :
      Trace step s (a :: l) r

namespace Trace

variable {step : σ → α → σ → Prop}

theorem append {s t r : σ} {l m : List α} (h : Trace step s l t) (h' : Trace step t m r) :
    Trace step s (l ++ m) r := by
  induction h with
  | nil => exact h'
  | cons ha _ ih => exact .cons ha (ih h')

theorem of_append {s r : σ} {l m : List α} (h : Trace step s (l ++ m) r) :
    ∃ t, Trace step s l t ∧ Trace step t m r := by
  induction l generalizing s with
  | nil => exact ⟨s, .nil s, h⟩
  | cons a l ih =>
    cases h with
    | cons ha hl =>
      obtain ⟨t, h₁, h₂⟩ := ih hl
      exact ⟨t, .cons ha h₁, h₂⟩

/-- A run of runs is a run. -/
theorem flatten {s t : σ} {ls : List (List α)} (h : Trace (Trace step) s ls t) :
    Trace step s ls.flatten t := by
  induction h with
  | nil => exact .nil _
  | cons ha _ ih => exact ha.append ih

theorem mono {step' : σ → α → σ → Prop} (hstep : ∀ s a t, step s a t → step' s a t) {s t : σ}
    {l : List α} (h : Trace step s l t) : Trace step' s l t := by
  induction h with
  | nil => exact .nil _
  | cons ha _ ih => exact .cons (hstep _ _ _ ha) ih

/-- A property kept by every step holds at the end of a run that starts with it. -/
theorem invariant {P : σ → Prop} (hstep : ∀ s a t, P s → step s a t → P t) {s t : σ}
    {l : List α} (h : Trace step s l t) (hs : P s) : P t := by
  induction h with
  | nil => exact hs
  | cons ha _ ih => exact ih (hstep _ _ _ hs ha)

/-- An invariant of the steps whose actions have a property, along a run of such actions. -/
theorem invariant_of_mem {P : σ → Prop} {Q : α → Prop}
    (hstep : ∀ s a t, P s → Q a → step s a t → P t) {s t : σ} {l : List α} (h : Trace step s l t)
    (hl : ∀ a ∈ l, Q a) (hs : P s) : P t := by
  induction h with
  | nil => exact hs
  | @cons s r _ a l ha _ ih =>
    exact ih (fun b hb => hl b (List.mem_cons_of_mem a hb))
      (hstep _ _ _ hs (hl a List.mem_cons_self) ha)

/-- What holds at the end of a run and not at its start came about in one of its steps. -/
theorem crossing {P : σ → Prop} {s t : σ} {l : List α} (h : Trace step s l t) (hs : ¬ P s)
    (ht : P t) : ∃ before a after u v, l = before ++ a :: after ∧ Trace step s before u ∧
      step u a v ∧ Trace step v after t ∧ ¬ P u ∧ P v := by
  induction h with
  | nil => exact absurd ht hs
  | @cons s r _ a l ha hl ih =>
    by_cases hr : P r
    · exact ⟨[], a, l, s, r, rfl, .nil s, ha, hl, hs, hr⟩
    · obtain ⟨before, b, after, u, v, rfl, hbefore, hb, hafter, hu, hv⟩ := ih hr ht
      exact ⟨a :: before, b, after, u, v, rfl, .cons ha hbefore, hb, hafter, hu, hv⟩

variable {ε γ : Type w} {ρ : Type x} {impl : ρ → EStateM ε γ PUnit} {render : α → ρ → Prop}
  (Sim : γ → σ → Prop)

/-- **Partial simulation.** If every successful implementation step on a rendered action keeps the
simulation relation, so does a successful loop over the rendering of a whole run. -/
theorem simulate
    (hstep : ∀ c s a t r c', Sim c s → step s a t → render a r → (impl r).run c = .ok ⟨⟩ c' →
      Sim c' t)
    {s t : σ} {l : List α} (h : Trace step s l t) {rs : List ρ} (hr : List.Forall₂ render l rs)
    {c c' : γ} (hc : Sim c s) (hrun : (forM rs impl).run c = .ok ⟨⟩ c') : Sim c' t := by
  induction h generalizing rs c with
  | nil =>
    cases hr
    cases hrun
    exact hc
  | cons ha _ ih =>
    cases hr with
    | cons har hr =>
      rw [List.forM_cons, run_bind_eq_ok] at hrun
      obtain ⟨_, c₁, h₁, h₂⟩ := hrun
      exact ih hr (hstep _ _ _ _ _ _ hc ha har h₁) h₂

/-- **Total simulation.** If an implementation step on a rendered action succeeds from related
states and keeps the relation, the loop over the rendering of a whole run succeeds and ends
related. What the steps on some actions establish, and no step undoes, holds after a loop that
meets one of them. -/
theorem refine (P : ρ → Prop) (Q : γ → Prop)
    (hstep : ∀ c s a t r, Sim c s → step s a t → render a r →
      ∃ c', (impl r).run c = .ok ⟨⟩ c' ∧ Sim c' t ∧ (P r ∨ Q c → Q c'))
    {s t : σ} {l : List α} (h : Trace step s l t) {rs : List ρ} (hr : List.Forall₂ render l rs)
    {c : γ} (hc : Sim c s) :
    ∃ c', (forM rs impl).run c = .ok ⟨⟩ c' ∧ Sim c' t ∧ ((∃ r ∈ rs, P r) ∨ Q c → Q c') := by
  induction h generalizing rs c with
  | nil =>
    cases hr
    exact ⟨c, rfl, hc, by simp⟩
  | cons ha _ ih =>
    cases hr with
    | cons har hr =>
      obtain ⟨c₁, h₁, hc₁, hq₁⟩ := hstep _ _ _ _ _ hc ha har
      obtain ⟨c', h', hc', hq'⟩ := ih hr hc₁
      refine ⟨c', by rw [List.forM_cons, run_bind_of_ok h₁]; exact h', hc', fun hq => ?_⟩
      rcases hq with ⟨r, hr, hp⟩ | hq
      · rcases List.mem_cons.1 hr with rfl | hr
        · exact hq' (Or.inr (hq₁ (Or.inl hp)))
        · exact hq' (Or.inl ⟨r, hr, hp⟩)
      · exact hq' (Or.inr (hq₁ (Or.inr hq)))

end Trace

end Lib
