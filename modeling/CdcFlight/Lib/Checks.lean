import Mathlib

/-!
# Checks over lists

What a loop over a list says when its body may raise: the loop returns exactly when the body does
on every element, and its answer is then that of the pure loop.

## Main results

* `Lib.exists_mapM_eq_ok_iff`, `Lib.mem_of_mapM_eq_ok`, `Lib.mem_of_mapM_eq_some`: passes that
  collect.
* `Lib.forM_eq_ok_iff`, `Lib.exists_anyM_iff`: checks and searches.
-/

namespace Lib

variable {α β ε : Type}

theorem mapM_eq_ok_iff {f : α → Except ε β} {l : List α} {r : List β} :
    l.mapM f = .ok r ↔ List.Forall₂ (fun a b => f a = .ok b) l r := by
  induction l generalizing r with
  | nil => simp [pure, Except.pure, eq_comm]
  | cons a l ih =>
    rw [List.mapM_cons]
    cases ha : f a with
    | error e => simp [bind, Except.bind, ha, List.forall₂_cons_left_iff]
    | ok b =>
      cases hl : l.mapM f with
      | error e =>
        refine iff_of_false (by simp [bind, Except.bind]) fun h => ?_
        obtain ⟨b', r', _, hrest, _⟩ := List.forall₂_cons_left_iff.1 h
        have hok := ih.2 hrest
        rw [hl] at hok
        exact absurd hok (by simp)
      | ok bs =>
        have hbs := ih.1 hl
        simp only [bind, Except.bind, pure, Except.pure, Except.ok.injEq]
        refine ⟨fun h => h ▸ .cons ha hbs, fun h => ?_⟩
        obtain ⟨b', r', hb', hrest, rfl⟩ := List.forall₂_cons_left_iff.1 h
        have hr' := ih.2 hrest
        rw [hl, Except.ok.injEq] at hr'
        rw [ha, Except.ok.injEq] at hb'
        rw [hr', hb']

/-- A pass returns exactly when its body does on every element. -/
theorem exists_mapM_eq_ok_iff {f : α → Except ε β} {l : List α} :
    (∃ r, l.mapM f = .ok r) ↔ ∀ a ∈ l, ∃ b, f a = .ok b := by
  simp only [mapM_eq_ok_iff]
  induction l with
  | nil => exact iff_of_true ⟨[], .nil⟩ fun a ha => absurd ha (by simp)
  | cons a l ih =>
    rw [List.forall_mem_cons, ← ih]
    constructor
    · rintro ⟨r, hr⟩
      obtain ⟨b, r', hb, hrest, _⟩ := List.forall₂_cons_left_iff.1 hr
      exact ⟨⟨b, hb⟩, r', hrest⟩
    · rintro ⟨⟨b, hb⟩, r, hr⟩
      exact ⟨b :: r, .cons hb hr⟩

/-- What a pass collects. -/
theorem mem_of_mapM_eq_ok {f : α → Except ε β} {l : List α} {r : List β} (h : l.mapM f = .ok r)
    {b : β} : b ∈ r ↔ ∃ a ∈ l, f a = .ok b := by
  rw [mapM_eq_ok_iff] at h
  induction h with
  | nil => simp
  | cons ha _ ih =>
    simp only [List.mem_cons, ih, exists_eq_or_imp, ha, Except.ok.injEq]
    exact or_congr_left eq_comm

/-- What a pass that may have no answer collects. -/
theorem mem_of_mapM_eq_some {f : α → Option β} {l : List α} {r : List β}
    (h : l.mapM f = some r) {b : β} (hb : b ∈ r) : ∃ a ∈ l, f a = some b := by
  induction l generalizing r with
  | nil =>
    obtain rfl := Option.some.inj h
    cases hb
  | cons a l ih =>
    rw [List.mapM_cons] at h
    obtain ⟨b', hb', h⟩ := Option.bind_eq_some_iff.1 h
    obtain ⟨bs, hbs, h⟩ := Option.bind_eq_some_iff.1 h
    obtain rfl := Option.some.inj h
    rcases List.mem_cons.1 hb with rfl | hb
    · exact ⟨a, List.mem_cons_self, hb'⟩
    · obtain ⟨a', ha', hfa'⟩ := ih hbs hb
      exact ⟨a', List.mem_cons_of_mem _ ha', hfa'⟩

theorem forM_eq_ok_iff {f : α → Except ε PUnit} {l : List α} :
    forM l f = .ok ⟨⟩ ↔ ∀ a ∈ l, f a = .ok ⟨⟩ := by
  induction l with
  | nil => simp [pure, Except.pure]
  | cons a l ih =>
    rw [List.forM_cons, List.forall_mem_cons, ← ih]
    cases ha : f a with
    | error e => simp [bind, Except.bind]
    | ok u => simp [bind, Except.bind]

/-- A search whose body never raises is the pure search. -/
theorem anyM_eq_ok {f : α → Except ε Bool} {g : α → Bool} {l : List α}
    (h : ∀ a ∈ l, f a = .ok (g a)) : l.anyM f = .ok (l.any g) := by
  induction l with
  | nil => rfl
  | cons a l ih =>
    rw [List.forall_mem_cons] at h
    rw [List.anyM, h.1, List.any_cons]
    cases hg : g a with
    | true => rfl
    | false => exact ih h.2

/-- A search whose body never raises returns, and finds what there is to find. -/
theorem exists_anyM_iff {f : α → Except ε Bool} {P : α → Prop} {l : List α}
    (h : ∀ a ∈ l, ∃ answer, f a = .ok answer ∧ (answer = true ↔ P a)) :
    ∃ answer, l.anyM f = .ok answer ∧ (answer = true ↔ ∃ a ∈ l, P a) := by
  refine ⟨_, anyM_eq_ok (g := fun a => (f a).toOption.getD false) fun a ha => ?_, ?_⟩
  · obtain ⟨answer, hanswer, _⟩ := h a ha
    rw [hanswer]
    rfl
  · rw [List.any_eq_true]
    refine exists_congr fun a => and_congr_right fun ha => ?_
    obtain ⟨answer, hanswer, hiff⟩ := h a ha
    rw [hanswer]
    exact hiff

theorem exists_anyM {f : α → Except ε Bool} {l : List α}
    (h : ∀ a ∈ l, ∃ answer, f a = .ok answer) : ∃ answer, l.anyM f = .ok answer := by
  obtain ⟨answer, hanswer, _⟩ := exists_anyM_iff (P := fun a => f a = .ok true) (l := l)
    fun a ha => (h a ha).imp fun answer hanswer => ⟨hanswer, by rw [hanswer, Except.ok.injEq]⟩
  exact ⟨answer, hanswer⟩

end Lib
