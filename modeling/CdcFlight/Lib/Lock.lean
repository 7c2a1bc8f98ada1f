import Mathlib

/-!
# Locks

A lock that threads take, give back and pass on. Each thread knows by its own state whether it
holds the lock; the lock knows its holder. The two agree as long as the lock is taken only when it
is free and given back or passed on only by its holder.

## Main definitions

* `Lib.Owns`: the lock has the holder that thinks so, and no other thread thinks so.

## Main results

* `Lib.Owns.eq`: mutual exclusion.
* `Lib.Owns.acquire`, `Lib.Owns.release`, `Lib.Owns.pass`, `Lib.Owns.keep_update`: the rules.
-/

namespace Lib

universe u

variable {T : Type u} {lock : Option T} {holds : T → Bool} {t t' : T}

/-- The lock has exactly the holder that thinks so. -/
def Owns (lock : Option T) (holds : T → Bool) : Prop := ∀ t, holds t = true ↔ lock = some t

namespace Owns

/-- **Mutual exclusion.** -/
theorem eq (h : Owns lock holds) (ht : holds t = true) (ht' : holds t' = true) : t = t' :=
  Option.some.inj (((h t).1 ht).symm.trans ((h t').1 ht'))

theorem not_of_free (h : Owns none holds) (t : T) : holds t = false := by
  rw [Bool.eq_false_iff, ne_eq, h t]
  exact Option.some_ne_none t ∘ Eq.symm

theorem not_of_ne (h : Owns lock holds) (ht : holds t = true) (hne : t' ≠ t) :
    holds t' = false := by
  rw [Bool.eq_false_iff]
  exact fun ht' => hne (h.eq ht' ht)

theorem of_not (h : ∀ t, holds t = false) : Owns none holds := fun t => by simp [h t]

variable [DecidableEq T]

/-- A thread changes its state, but not whether it holds the lock. -/
theorem keep_update (h : Owns lock holds) {b : Bool} (hb : b = holds t) :
    Owns lock (Function.update holds t b) := by
  rwa [hb, Function.update_eq_self]

/-- A free lock is taken. -/
theorem acquire (h : Owns none holds) (t : T) : Owns (some t) (Function.update holds t true) := by
  intro t'
  rw [Function.update_apply, Option.some.injEq]
  split_ifs with ht
  · simp [ht]
  · simp [h.not_of_free t', Ne.symm ht]

/-- The holder gives the lock back. -/
theorem release (h : Owns lock holds) (ht : holds t = true) :
    Owns none (Function.update holds t false) := by
  intro t'
  rw [Function.update_apply]
  split_ifs with hne
  · simp
  · simp [h.not_of_ne ht hne]

/-- The holder passes the lock on. -/
theorem pass (h : Owns lock holds) (ht : holds t = true) (t' : T) :
    Owns (some t') (Function.update (Function.update holds t false) t' true) :=
  (h.release ht).acquire t'

end Owns

end Lib
