import CdcFlight.Lib.Run

/-!
# Programs along which a state only grows

A program that may raise leaves a state behind in either case. Where the states before and after
every part of a program are related by a transitive relation, so are those of the whole.

## Main definitions

* `Lib.final`: the state that a run leaves, whether it raises or not.

## Main results

* `Lib.final_bind`: a composed program moves along a relation that its parts move along.
-/

namespace Lib

universe u

variable {ε σ : Type u} {α β : Type u} {R : σ → σ → Prop} {s : σ}

/-- The state that a run leaves, whether it raises or not. -/
def final : EStateM.Result ε σ α → σ
  | .ok _ t => t
  | .error _ t => t

@[simp] theorem final_ok (a : α) (t : σ) : final (.ok a t : EStateM.Result ε σ α) = t := rfl

@[simp] theorem final_error (e : ε) (t : σ) : final (.error e t : EStateM.Result ε σ α) = t := rfl

theorem final_bind [IsTrans σ R] {m : EStateM ε σ α} {f : α → EStateM ε σ β}
    (hm : R s (final (m.run s)))
    (hf : ∀ a t, m.run s = .ok a t → R t (final ((f a).run t))) :
    R s (final ((m >>= f).run s)) := by
  rw [EStateM.run_bind]
  cases hrun : m.run s with
  | ok a t =>
    rw [hrun] at hm
    exact IsTrans.trans _ _ _ hm (hf a t hrun)
  | error e t =>
    rw [hrun] at hm
    exact hm

end Lib
