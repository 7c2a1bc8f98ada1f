import Mathlib

/-!
# Logs with positions

A log of entries that is read again after a restart, by a reader that has kept nothing but the
greatest position it has seen. The guarded entries lie after everything before them, so the reader
tells those it has seen from those it has not. Entries that are not guarded may lie anywhere.

What an entry does to a state is an arbitrary function, so the rules below hold also where doing it
twice differs from doing it once.

## Main definitions

* `Lib.MarkedLog`: a log with its positions.
* `Lib.MarkedLog.upTo`: the greatest position before an index.
* `Lib.MarkedLog.replay`: what the guarded entries before an index do to a state.

## Main results

* `Lib.MarkedLog.mark_le_upTo_iff`: the guarded entries at or below that position are the ones
  before the index.
* `Lib.MarkedLog.foldl_segment`: reading a segment again applies what was not applied before.
* `Lib.MarkedLog.upTo_segment`: the position moves along.
-/

namespace Lib

universe u v w

theorem foldl_max_lt_iff {M : Type v} [LinearOrder M] {start bound : M} {marks : List M} :
    marks.foldl max start < bound ↔ start < bound ∧ ∀ x ∈ marks, x < bound := by
  induction marks generalizing start with
  | nil => simp
  | cons x marks ih => rw [List.foldl_cons, ih, max_lt_iff, List.forall_mem_cons, and_assoc]

/-- A log whose guarded entries lie after everything before them. -/
structure MarkedLog (ι : Type u) (M : Type v) [LinearOrder M] [OrderBot M] where
  entries : List ι
  mark : ι → M
  guarded : ι → Bool
  ordered : entries.Pairwise fun a b => guarded b → mark a < mark b
  positive : ∀ a ∈ entries, guarded a → ⊥ < mark a

namespace MarkedLog

variable {ι : Type u} {M : Type v} [LinearOrder M] [OrderBot M] {σ : Type w}

section Defs

variable (log : MarkedLog ι M) (apply : σ → ι → σ)

/-- The entries from an index up to another. -/
def segment (a b : ℕ) : List ι := (log.entries.take b).drop a

/-- The greatest position before an index. -/
def upTo (n : ℕ) : M := ((log.entries.take n).map log.mark).foldl max ⊥

/-- What the guarded entries before an index do to a state. -/
def replay (s : σ) (n : ℕ) : σ := ((log.entries.take n).filter log.guarded).foldl apply s

/-- A guarded entry beyond a position is applied. -/
def applyBeyond (bound : M) (s : σ) (a : ι) : σ :=
  if log.guarded a && decide (bound < log.mark a) then apply s a else s

end Defs

variable {log : MarkedLog ι M} {apply : σ → ι → σ} {s : σ} {a : ι} {c m n i : ℕ} {bound : M}

/-! ### One entry more -/

theorem take_succ (h : log.entries[m]? = some a) :
    log.entries.take (m + 1) = log.entries.take m ++ [a] := by
  rw [List.take_add_one, h, Option.toList_some]

@[simp] theorem segment_self : log.segment c c = [] := by
  rw [segment, List.drop_eq_nil_iff]
  exact List.length_take_le c _

theorem segment_succ (hcm : c ≤ m) (h : log.entries[m]? = some a) :
    log.segment c (m + 1) = log.segment c m ++ [a] := by
  have hm : m < log.entries.length := (List.getElem?_eq_some_iff.1 h).1
  rw [segment, take_succ h, List.drop_append_of_le_length, segment]
  rw [List.length_take, min_eq_left hm.le]
  exact hcm

theorem length_segment (h : m ≤ log.entries.length) : (log.segment c m).length = m - c := by
  rw [segment, List.length_drop, List.length_take, min_eq_left h]

theorem segment_append (hcm : c ≤ m) (hmn : m ≤ n) :
    log.segment c n = log.segment c m ++ log.segment m n := by
  rw [segment, segment, segment, ← List.take_append_drop (m - c) ((log.entries.take n).drop c),
    List.drop_drop, Nat.add_sub_cancel' hcm, List.take_drop, Nat.add_sub_cancel' hcm,
    List.take_take, min_eq_left hmn]

theorem take_segment (k : ℕ) : (log.segment c m).take k = log.segment c (min m (c + k)) := by
  rw [segment, segment, List.take_drop, List.take_take, min_comm]

theorem getElem?_segment {k : ℕ} (h : (log.segment c m)[k]? = some a) :
    log.entries[c + k]? = some a := by
  rw [segment, List.getElem?_drop] at h
  rw [← h, List.getElem?_take_of_lt]
  have hlt := (List.getElem?_eq_some_iff.1 h).1
  rw [List.length_take] at hlt
  exact lt_of_lt_of_le hlt (min_le_left _ _)

theorem mem_entries_of_mem_segment (h : a ∈ log.segment c m) : a ∈ log.entries :=
  List.mem_of_mem_take (List.mem_of_mem_drop h)

theorem segment_of_length_le (hm : log.entries.length ≤ m) :
    log.segment c (m + 1) = log.segment c m := by
  rw [segment, segment, List.take_of_length_le (by omega), List.take_of_length_le hm]

theorem upTo_succ (h : log.entries[m]? = some a) :
    log.upTo (m + 1) = max (log.upTo m) (log.mark a) := by
  rw [upTo, take_succ h, List.map_append, List.foldl_append]
  rfl

theorem upTo_of_length_le (hm : log.entries.length ≤ m) (h : m ≤ n) : log.upTo n = log.upTo m := by
  rw [upTo, upTo, List.take_of_length_le (hm.trans h), List.take_of_length_le hm]

theorem upTo_mono (h : n ≤ m) : log.upTo n ≤ log.upTo m := by
  induction m, h using Nat.le_induction with
  | base => exact le_rfl
  | succ m _ ih =>
    cases ha : log.entries[m]? with
    | none => rwa [upTo_of_length_le (List.getElem?_eq_none_iff.1 ha) m.le_succ]
    | some a => exact ih.trans (upTo_succ ha ▸ le_max_left _ _)

theorem replay_succ (h : log.entries[m]? = some a) :
    log.replay apply s (m + 1) =
      if log.guarded a then apply (log.replay apply s m) a else log.replay apply s m := by
  rw [replay, take_succ h, List.filter_append, List.foldl_append, ← replay]
  by_cases hguarded : log.guarded a = true
  · rw [if_pos hguarded, List.filter_cons_of_pos hguarded]
    rfl
  · rw [if_neg hguarded, List.filter_cons_of_neg hguarded]
    rfl

theorem replay_of_length_le (hm : log.entries.length ≤ m) (h : m ≤ n) :
    log.replay apply s n = log.replay apply s m := by
  rw [replay, replay, List.take_of_length_le (hm.trans h), List.take_of_length_le hm]

/-! ### Reading again -/

/-- **A guarded entry is at or below the position exactly if it lies before the index.** -/
theorem mark_le_upTo_iff (h : log.entries[i]? = some a) (hguarded : log.guarded a = true) :
    log.mark a ≤ log.upTo n ↔ i < n := by
  obtain ⟨hi, rfl⟩ := List.getElem?_eq_some_iff.1 h
  refine ⟨fun hle => ?_, fun hlt => ?_⟩
  · by_contra hni
    have hni : n ≤ i := Nat.le_of_not_lt hni
    refine absurd hle (not_le_of_gt (foldl_max_lt_iff.2 ⟨log.positive _ (List.getElem_mem hi)
      hguarded, fun x hx => ?_⟩))
    obtain ⟨b, hb, rfl⟩ := List.mem_map.1 hx
    obtain ⟨j, hj, rfl⟩ := List.mem_take_iff_getElem.1 hb
    rw [lt_min_iff] at hj
    exact List.pairwise_iff_getElem.1 log.ordered j i hj.2 hi (by omega) hguarded
  · calc log.mark log.entries[i] ≤ log.upTo (i + 1) := upTo_succ h ▸ le_max_right _ _
      _ ≤ log.upTo n := upTo_mono hlt

/-- **Reading a segment again applies what was not applied before.** -/
theorem foldl_segment (hcn : c ≤ n) (hcm : c ≤ m) :
    (log.segment c m).foldl (log.applyBeyond apply (log.upTo n)) (log.replay apply s n) =
      log.replay apply s (max n m) := by
  induction m, hcm using Nat.le_induction with
  | base => rw [segment_self, List.foldl_nil, max_eq_left hcn]
  | succ m hcm ih =>
    cases ha : log.entries[m]? with
    | none =>
      have hm := List.getElem?_eq_none_iff.1 ha
      rw [segment_of_length_le hm, ih]
      exact (replay_of_length_le (hm.trans (le_max_right n m)) (max_le_max_left n m.le_succ)).symm
    | some a =>
      rw [segment_succ hcm ha, List.foldl_append, ih, List.foldl_cons, List.foldl_nil, applyBeyond]
      rcases lt_or_ge m n with hmn | hnm
      · -- The entry lies before the index, so it is not applied again.
        rw [max_eq_left hmn.le, max_eq_left hmn, if_neg]
        rw [Bool.and_eq_true, decide_eq_true_iff, not_and, not_lt]
        exact fun hguarded => (mark_le_upTo_iff ha hguarded).2 hmn
      · rw [max_eq_right hnm, max_eq_right (hnm.trans m.le_succ), replay_succ ha]
        by_cases hguarded : log.guarded a = true
        · have hbeyond : log.upTo n < log.mark a :=
            lt_of_not_ge (mt (mark_le_upTo_iff ha hguarded).1 hnm.not_gt)
          rw [if_pos hguarded, if_pos (by simp [hguarded, hbeyond])]
        · rw [if_neg hguarded, if_neg (by simp [hguarded])]

/-- The position moves along a segment that is read again. -/
theorem upTo_segment (hcn : c ≤ n) (hcm : c ≤ m) :
    ((log.segment c m).map log.mark).foldl max (log.upTo n) = log.upTo (max n m) := by
  induction m, hcm using Nat.le_induction with
  | base => rw [segment_self, max_eq_left hcn]; rfl
  | succ m hcm ih =>
    cases ha : log.entries[m]? with
    | none =>
      have hm := List.getElem?_eq_none_iff.1 ha
      rw [segment_of_length_le hm, ih]
      exact (upTo_of_length_le (hm.trans (le_max_right n m)) (max_le_max_left n m.le_succ)).symm
    | some a =>
      rw [segment_succ hcm ha, List.map_append, List.foldl_append, ih, List.map_singleton,
        List.foldl_cons, List.foldl_nil]
      rcases lt_or_ge m n with hmn | hnm
      · have hle : log.mark a ≤ log.upTo n :=
          calc log.mark a ≤ log.upTo (m + 1) := upTo_succ ha ▸ le_max_right _ _
            _ ≤ log.upTo n := upTo_mono hmn
        rw [max_eq_left hmn.le, max_eq_left hle, max_eq_left (Nat.succ_le_of_lt hmn)]
      · rw [max_eq_right hnm, max_eq_right (hnm.trans m.le_succ), upTo_succ ha]

end MarkedLog

end Lib
