import CdcFlight.Lib.Run

/-!
# Two runs side by side

Two programs that may raise, on states of their own, are run beside each other. They are *coupled*
when both return, with related results and related states, or both raise the same error in related
states. The rules below follow the shape of a program, so that two programs written alike are
coupled once their differing parts are.

## Main definitions

* `Lib.Coupled`: related ends of two runs.

## Main results

* `Lib.Coupled.bind`, `Lib.Coupled.loop`: the rules for a sequence and for a loop.
-/

namespace Lib

universe u

variable {ε σ τ α β γ δ : Type u}

/-- Two runs that end alike: both return, or both raise the same error. -/
inductive Coupled (Q : α → β → σ → τ → Prop) (E : σ → τ → Prop) :
    EStateM.Result ε σ α → EStateM.Result ε τ β → Prop
  | ok {a : α} {b : β} {s : σ} {t : τ} (h : Q a b s t) : Coupled Q E (.ok a s) (.ok b t)
  | error {e : ε} {s : σ} {t : τ} (h : E s t) : Coupled Q E (.error e s) (.error e t)

/-- The run returned. -/
def returned : EStateM.Result ε σ α → Bool
  | .ok _ _ => true
  | .error _ _ => false

namespace Coupled

variable {Q Q' : α → β → σ → τ → Prop} {E E' : σ → τ → Prop}
  {r : EStateM.Result ε σ α} {r' : EStateM.Result ε τ β}

theorem mono (h : Coupled Q E r r') (hQ : ∀ a b s t, Q a b s t → Q' a b s t)
    (hE : ∀ s t, E s t → E' s t) : Coupled Q' E' r r' := by
  rcases h with h | h
  · exact .ok (hQ _ _ _ _ h)
  · exact .error (hE _ _ h)

/-- Of two coupled runs either both return or neither does. -/
theorem returned_eq (h : Coupled Q E r r') : returned r = returned r' := by
  rcases h with h | h
  · rfl
  · rfl

/-- What follows a coupled pair is run from the related results and states. -/
theorem bind {R : γ → δ → σ → τ → Prop} {m : EStateM ε σ γ} {m' : EStateM ε τ δ}
    {f : γ → EStateM ε σ α} {f' : δ → EStateM ε τ β} {s : σ} {t : τ}
    (h : Coupled R E (m.run s) (m'.run t))
    (hf : ∀ a b s t, R a b s t → Coupled Q E ((f a).run s) ((f' b).run t)) :
    Coupled Q E ((m >>= f).run s) ((m' >>= f').run t) := by
  rw [EStateM.run_bind, EStateM.run_bind]
  generalize hm : m.run s = x at h ⊢
  generalize hm' : m'.run t = x' at h ⊢
  rcases h with h | h
  · exact hf _ _ _ _ h
  · exact .error h

/-- Two loops over related lists are coupled when their bodies keep a relation on the states. -/
theorem loop {P : γ → δ → Prop} {R : σ → τ → Prop} {f : γ → EStateM ε σ PUnit}
    {f' : δ → EStateM ε τ PUnit} {l : List γ} {l' : List δ} (hl : List.Forall₂ P l l')
    (hf : ∀ a b s t, P a b → R s t → Coupled (fun _ _ => R) E ((f a).run s) ((f' b).run t))
    {s : σ} {t : τ} (hs : R s t) :
    Coupled (fun _ _ => R) E ((forM l f).run s) ((forM l' f').run t) := by
  induction hl generalizing s t with
  | nil => exact .ok hs
  | cons hab _ ih =>
    rw [List.forM_cons, List.forM_cons]
    exact (hf _ _ _ _ hab hs).bind fun _ _ _ _ hs => ih hs

end Coupled

end Lib
