import Mathlib

/-!
# Procedures that are resumed

A procedure in stages that can be cut off anywhere. A stage is carried out first and recorded
after, so that a stage that was carried out but not recorded is carried out once more by the next
attempt.

## Main definitions

* `Lib.Progress`: how far a procedure got, and what of it is recorded.
* `Lib.Progress.Step`: it goes on, or is cut off.
* `Lib.Progress.finish`: where it leads without further interruption.

## Main results

* `Lib.Progress.finish_eq`: a step leads nowhere else, if a stage carried out twice is a stage
  carried out once.
-/

namespace Lib

universe u

variable {σ : Type u}

/-- How far a procedure got. -/
structure Progress (σ : Type u) where
  /-- The recorded position. -/
  position : ℕ
  /-- The attempt has carried out the stage at the position. -/
  carried : Bool
  /-- What the stages act on. -/
  state : σ

namespace Progress

variable (stages : List (σ → σ))

/-- One step of an attempt, or the end of the attempt. -/
inductive Step : Progress σ → Progress σ → Prop
  | carry {i : ℕ} {s : σ} {f : σ → σ} (hf : stages[i]? = some f) : Step ⟨i, false, s⟩ ⟨i, true, f s⟩
  | record {i : ℕ} {s : σ} (hi : i < stages.length) : Step ⟨i, true, s⟩ ⟨i + 1, false, s⟩
  | cut (p : Progress σ) : Step p { p with carried := false }

/-- The stages from a position on, one after the other. -/
def finishFrom (i : ℕ) (s : σ) : σ := (stages.drop i).foldl (fun s f => f s) s

/-- Where the procedure leads from its recorded position. -/
def finish (p : Progress σ) : σ := finishFrom stages p.position p.state

/-- A stage that was carried out changes nothing more. -/
def Settled (p : Progress σ) : Prop :=
  p.carried = true → ∀ f, stages[p.position]? = some f → f p.state = p.state

variable {stages} {p q : Progress σ}

theorem finishFrom_of_getElem? {i : ℕ} {f : σ → σ} (hf : stages[i]? = some f) (s : σ) :
    finishFrom stages i s = finishFrom stages (i + 1) (f s) := by
  obtain ⟨hi, rfl⟩ := List.getElem?_eq_some_iff.1 hf
  rw [finishFrom, finishFrom, List.drop_eq_getElem_cons hi, List.foldl_cons]

/-- Nothing is left to do at the end. -/
theorem finish_of_le (hp : stages.length ≤ p.position) : finish stages p = p.state := by
  rw [finish, finishFrom, List.drop_eq_nil_of_le hp, List.foldl_nil]

theorem Step.settled (hidem : ∀ f ∈ stages, ∀ s, f (f s) = f s) (h : Step stages p q) :
    Settled stages q := by
  cases h with
  | carry hf =>
    intro _ g hg
    rw [Option.some.inj (hg.symm.trans hf)]
    exact hidem _ (List.mem_of_getElem? hf) _
  | record => exact fun h => absurd h (by simp)
  | cut => exact fun h => absurd h (by simp)

/-- **A step** leaves the end where it is. -/
theorem finish_eq (hidem : ∀ f ∈ stages, ∀ s, f (f s) = f s) (hp : Settled stages p)
    (h : Step stages p q) : finish stages q = finish stages p := by
  cases h with
  | carry hf =>
    rw [finish, finish, finishFrom_of_getElem? hf, finishFrom_of_getElem? hf,
      hidem _ (List.mem_of_getElem? hf)]
  | record hi =>
    have hf := List.getElem?_eq_getElem hi
    rw [finish, finish, finishFrom_of_getElem? hf, hp rfl _ hf]
  | cut => rfl

end Progress

end Lib
