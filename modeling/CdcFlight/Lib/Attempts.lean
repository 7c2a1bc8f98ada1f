import Mathlib

/-!
# Repeated attempts

A procedure that fails is run again in the state its failure handler leaves. An attempt either
succeeds or names the culprit and gives the state of the next attempt.

## Main definitions

* `Lib.stateAt`, `Lib.failureAt`: the state and the culprit of each attempt.

## Main results

* `Lib.stateAt_eq_none_of_fresh`: attempts with distinct culprits from a finite set end.
* `Lib.stateAt_isSome_of_invariant`: attempts that keep failing do not end.
-/

namespace Lib

universe u v

variable {σ : Type u} {ρ : Type v} (attempt : σ → Option (ρ × σ)) (s : σ)

/-- The state of an attempt, if there is such an attempt. -/
def stateAt : ℕ → Option σ
  | 0 => some s
  | n + 1 => (stateAt n).bind fun t => (attempt t).map Prod.snd

/-- The culprit of an attempt, if there is such an attempt and it fails. -/
def failureAt (n : ℕ) : Option ρ := (stateAt attempt s n).bind fun t => (attempt t).map Prod.fst

variable {attempt s}

theorem failureAt_eq_some_iff {n : ℕ} {q : ρ} : failureAt attempt s n = some q ↔
    ∃ t t', stateAt attempt s n = some t ∧ attempt t = some (q, t') := by
  simp [failureAt, Option.bind_eq_some_iff]

theorem stateAt_succ_eq_some_iff {n : ℕ} {t' : σ} : stateAt attempt s (n + 1) = some t' ↔
    ∃ t q, stateAt attempt s n = some t ∧ attempt t = some (q, t') := by
  simp [stateAt, Option.bind_eq_some_iff]

/-- There is a next attempt exactly when this one fails. -/
theorem stateAt_succ_isSome {n : ℕ} :
    (stateAt attempt s (n + 1)).isSome = (failureAt attempt s n).isSome := by
  rw [stateAt, failureAt]
  cases stateAt attempt s n with
  | none => rfl
  | some t => simp

/-- All attempts before an attempt fail. -/
theorem failureAt_isSome_of_lt {m n : ℕ} (h : (stateAt attempt s n).isSome) (hlt : m < n) :
    (failureAt attempt s m).isSome := by
  induction n with
  | zero => omega
  | succ n ih =>
    rw [stateAt_succ_isSome] at h
    rcases Nat.lt_succ_iff_lt_or_eq.1 hlt with hlt | rfl
    · refine ih ?_ hlt
      rw [failureAt] at h
      obtain ⟨q, hq⟩ := Option.isSome_iff_exists.1 h
      obtain ⟨t, ht, -⟩ := Option.bind_eq_some_iff.1 hq
      rw [ht, Option.isSome_some]
    · exact h

/-- **Fresh culprits run out.** If every culprit is in a finite set and none returns, there is at
most one attempt more than the set has elements. -/
theorem stateAt_eq_none_of_fresh (F : Finset ρ)
    (hmem : ∀ n q, failureAt attempt s n = some q → q ∈ F)
    (hfresh : ∀ m n q, m < n → failureAt attempt s m = some q → failureAt attempt s n ≠ some q) :
    stateAt attempt s (F.card + 1) = none := by
  by_contra hne
  have hsome : ∀ m, m < F.card + 1 → (failureAt attempt s m).isSome := fun m hm =>
    failureAt_isSome_of_lt (Option.isSome_iff_ne_none.2 hne) hm
  -- One culprit for each attempt, all of them different.
  let culprit (m : Fin (F.card + 1)) : ρ := (failureAt attempt s m).get (hsome m m.2)
  have hculprit (m : Fin (F.card + 1)) : failureAt attempt s m = some (culprit m) := by
    simp [culprit]
  have hinj : Function.Injective culprit := by
    intro m n heq
    rcases lt_trichotomy (m : ℕ) n with hlt | hsame | hlt
    · exact absurd (heq ▸ hculprit n) (hfresh m n _ hlt (hculprit m))
    · exact Fin.ext hsame
    · exact absurd (heq ▸ hculprit m) (hfresh n m _ hlt (hculprit n))
  have hcard := Finset.card_le_card_of_injOn (s := Finset.univ) (t := F) culprit
    (fun m _ => hmem m _ (hculprit m)) hinj.injOn
  rw [Finset.card_univ, Fintype.card_fin] at hcard
  omega

/-- **Attempts that keep failing.** If a failing attempt leaves a state in which the next one fails
too, there is no last attempt. -/
theorem stateAt_isSome_of_invariant {P : σ → Prop} (hs : P s)
    (hstep : ∀ t, P t → ∃ q t', attempt t = some (q, t') ∧ P t') (n : ℕ) :
    ∃ t, stateAt attempt s n = some t ∧ P t := by
  induction n with
  | zero => exact ⟨s, rfl, hs⟩
  | succ n ih =>
    obtain ⟨t, ht, hP⟩ := ih
    obtain ⟨q, t', hattempt, hP'⟩ := hstep t hP
    exact ⟨t', stateAt_succ_eq_some_iff.2 ⟨t, q, ht, hattempt⟩, hP'⟩

end Lib
