import Mathlib

/-!
# The next point of a finite set

The points of a finite set cut a linear order into half-open intervals: each point reaches up to
the next one, and the last point reaches up to `⊤`. Inserting a point shortens exactly the
interval it falls into.

## Main definitions

* `Lib.nextAbove`: the least point of a finite set above a given one, `⊤` when there is none.

## Main results

* `Lib.nextAbove_insert`: the effect of one more point.
* `Lib.nextAbove_eq_coe_iff`, `Lib.nextAbove_eq_top_iff`: what the next point is.
-/

namespace Lib

variable {T : Type*} [LinearOrder T] {S : Finset T} {x y t : T}

/-- The least point of `S` above `x`; `⊤` when `S` has no point above `x`. -/
def nextAbove (S : Finset T) (x : T) : WithTop T := (S.filter (x < ·)).min

theorem nextAbove_le (hy : y ∈ S) (h : x < y) : nextAbove S x ≤ y :=
  Finset.min_le (Finset.mem_filter.2 ⟨hy, h⟩)

theorem mem_of_nextAbove_eq (h : nextAbove S x = t) : t ∈ S ∧ x < t :=
  Finset.mem_filter.1 (Finset.mem_of_min h)

theorem lt_nextAbove (S : Finset T) (x : T) : (x : WithTop T) < nextAbove S x := by
  cases h : nextAbove S x with
  | top => exact WithTop.coe_lt_top x
  | coe t => exact WithTop.coe_lt_coe.2 (mem_of_nextAbove_eq h).2

theorem nextAbove_eq_top_iff : nextAbove S x = ⊤ ↔ ∀ y ∈ S, y ≤ x := by
  rw [nextAbove, Finset.min_eq_top, Finset.filter_eq_empty_iff]
  simp

theorem le_nextAbove_iff : (t : WithTop T) ≤ nextAbove S x ↔ ∀ y ∈ S, x < y → t ≤ y := by
  constructor
  · intro h y hy hlt
    exact WithTop.coe_le_coe.1 (h.trans (nextAbove_le hy hlt))
  · intro h
    refine Finset.le_min fun y hy => ?_
    obtain ⟨hy, hlt⟩ := Finset.mem_filter.1 hy
    exact WithTop.coe_le_coe.2 (h y hy hlt)

/-- The next point is the point above with nothing of the set in between. -/
theorem nextAbove_eq_coe_iff : nextAbove S x = t ↔ t ∈ S ∧ x < t ∧ ∀ y ∈ S, x < y → t ≤ y := by
  constructor
  · intro h
    exact ⟨(mem_of_nextAbove_eq h).1, (mem_of_nextAbove_eq h).2, le_nextAbove_iff.1 h.ge⟩
  · rintro ⟨ht, hlt, hleast⟩
    exact le_antisymm (nextAbove_le ht hlt) (le_nextAbove_iff.2 hleast)

/-- **One more point** above `x` cuts the interval of `x` short. -/
theorem nextAbove_insert (h : x < t) :
    nextAbove (insert t S) x = min (t : WithTop T) (nextAbove S x) := by
  rw [nextAbove, Finset.filter_insert, if_pos h, Finset.min_insert]
  rfl

theorem nextAbove_insert_of_le (h : t ≤ x) : nextAbove (insert t S) x = nextAbove S x := by
  rw [nextAbove, Finset.filter_insert, if_neg h.not_gt]
  rfl

/-- A new point outside the interval of `x` does not change it. -/
theorem nextAbove_insert_of_le_or (h : t ≤ x ∨ nextAbove S x ≤ t) :
    nextAbove (insert t S) x = nextAbove S x := by
  rcases le_or_gt t x with hle | hlt
  · exact nextAbove_insert_of_le hle
  · rw [nextAbove_insert hlt, min_eq_right (h.resolve_left hlt.not_ge)]

/-- A new point inside the interval of `x` ends it. -/
theorem nextAbove_insert_of_lt (h : x < t) (h' : t ≤ nextAbove S x) :
    nextAbove (insert t S) x = t := by
  rw [nextAbove_insert h, min_eq_left h']

end Lib
