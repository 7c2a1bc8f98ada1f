import Mathlib

/-!
# Journals

A journal is a list that only grows at its end. A property of an entry that depends on what was
written before it is a property of the whole journal as soon as each entry had it when it was
written.

## Main definitions

* `Lib.EachAfter`: every entry has the property after the entries before it.

## Main results

* `Lib.eachAfter_append_singleton`, `Lib.eachAfter_cons`: what the last and the first entry have to
  satisfy.
-/

namespace Lib

universe u

variable {α : Type u} {P Q : List α → α → Prop} {l m : List α} {a : α}

/-- Every entry of the journal has the property after the entries before it. -/
def EachAfter (P : List α → α → Prop) (l : List α) : Prop :=
  ∀ before a after, l = before ++ a :: after → P before a

theorem eachAfter_nil : EachAfter P [] := by
  intro before a after h
  simp at h

theorem eachAfter_append_singleton :
    EachAfter P (l ++ [a]) ↔ EachAfter P l ∧ P l a := by
  constructor
  · intro h
    refine ⟨fun before b after hl => h before b (after ++ [a]) ?_, h l a [] rfl⟩
    rw [hl, List.append_assoc, List.cons_append]
  · rintro ⟨hl, ha⟩ before b after h
    by_cases hafter : after = []
    · subst hafter
      obtain ⟨rfl, hb⟩ := List.append_inj' h rfl
      rw [← List.singleton_inj.1 hb]
      exact ha
    · obtain ⟨rest, c, rfl⟩ := (List.eq_nil_or_concat after).resolve_left hafter
      rw [List.concat_eq_append, ← List.cons_append, ← List.append_assoc] at h
      exact hl before b rest (List.append_inj' h rfl).1

theorem eachAfter_cons :
    EachAfter P (a :: l) ↔ P [] a ∧ EachAfter (fun before => P (a :: before)) l := by
  constructor
  · intro h
    refine ⟨h [] a l rfl, fun before b after hl => h (a :: before) b after ?_⟩
    rw [hl, List.cons_append]
  · rintro ⟨ha, hl⟩ before b after h
    cases before with
    | nil =>
      obtain ⟨rfl, -⟩ := List.cons.inj h
      exact ha
    | cons c before =>
      obtain ⟨rfl, htail⟩ := List.cons.inj h
      exact hl before b after htail

theorem eachAfter_append :
    EachAfter P (l ++ m) ↔ EachAfter P l ∧ EachAfter (fun before => P (l ++ before)) m := by
  induction m using List.reverseRecOn with
  | nil =>
    rw [List.append_nil]
    exact ⟨fun h => ⟨h, eachAfter_nil⟩, fun h => h.1⟩
  | append_singleton m a ih =>
    rw [← List.append_assoc, eachAfter_append_singleton, eachAfter_append_singleton, ih, and_assoc]

/-- A property of the images is one of the entries. -/
theorem EachAfter.of_map {β : Type*} {Q : List β → β → Prop} {f : α → β}
    (h : EachAfter Q (l.map f)) : EachAfter (fun before a => Q (before.map f) (f a)) l := by
  intro before a after hl
  refine h (before.map f) (f a) (after.map f) ?_
  rw [hl, List.map_append, List.map_cons]

theorem EachAfter.mono (h : EachAfter P l) (hPQ : ∀ before a, P before a → Q before a) :
    EachAfter Q l :=
  fun before a after hl => hPQ before a (h before a after hl)

/-- What was written before an entry is a journal with the property too. -/
theorem EachAfter.of_append (h : EachAfter P (l ++ m)) : EachAfter P l := by
  intro before a after hl
  refine h before a (after ++ m) ?_
  rw [hl, List.append_assoc, List.cons_append]

end Lib
