import Mathlib

/-!
# Cutting a list into slices

A list is cut into consecutive slices, one for each of a list of stages, such that every stage
admits the elements of its slice. A greedy cut takes at each stage as much as the stage admits; no
other cut gets further.

## Main definitions

* `Lib.Sliced`: the cuts of a list.
* `Lib.leftAfter`: what the greedy cut leaves.
* `Lib.LongestSliced`: the longest prefix that can be cut.

## Main results

* `Lib.Sliced.prefix_of_leftAfter`: the greedy cut gets furthest.
* `Lib.longestSliced_iff`: the longest prefix is what the greedy cut takes.
-/

namespace Lib

variable {α β : Type} (admits : β → α → Bool)

/-- The list is cut into slices, one for each stage, whose elements the stage admits. -/
inductive Sliced : List β → List α → Prop
  | nil : Sliced [] []
  | cons {stage : β} {stages : List β} {slice rest : List α}
      (hslice : ∀ a ∈ slice, admits stage a = true) (hrest : Sliced stages rest) :
      Sliced (stage :: stages) (slice ++ rest)

/-- What is left when each stage in turn takes what it admits. -/
def leftAfter (stages : List β) (l : List α) : List α :=
  stages.foldl (fun rest stage => rest.dropWhile (admits stage)) l

/-- A prefix can be cut, and the prefix with the next element cannot. -/
structure LongestSliced (stages : List β) (taken left : List α) : Prop where
  sliced : Sliced admits stages taken
  longest : ∀ a rest, left = a :: rest → ¬ Sliced admits stages (taken ++ [a])

variable {admits}

@[simp] theorem leftAfter_nil (l : List α) : leftAfter admits [] l = l := rfl

@[simp] theorem leftAfter_cons (stage : β) (stages : List β) (l : List α) :
    leftAfter admits (stage :: stages) l =
      leftAfter admits stages (l.dropWhile (admits stage)) := rfl

theorem sliced_nil_iff {l : List α} : Sliced admits [] l ↔ l = [] := by
  refine ⟨fun h => ?_, fun h => h ▸ .nil⟩
  cases h
  rfl

theorem Sliced.empty (stages : List β) : Sliced admits stages ([] : List α) := by
  induction stages with
  | nil => exact .nil
  | cons stage stages ih =>
    rw [← List.nil_append []]
    exact .cons (fun a ha => absurd ha (by simp)) ih

/-- A prefix of a cut list is cut. -/
theorem Sliced.left_of_append {stages : List β} : ∀ {first second : List α},
    Sliced admits stages (first ++ second) → Sliced admits stages first := by
  induction stages with
  | nil =>
    intro first second h
    exact sliced_nil_iff.2 (List.append_eq_nil_iff.1 (sliced_nil_iff.1 h)).1
  | cons stage stages ih =>
    intro first second h
    generalize hl : first ++ second = l at h
    cases h with
    | cons hslice hrest =>
      rename_i slice rest
      rcases List.append_eq_append_iff.1 hl with ⟨tail, rfl, rfl⟩ | ⟨tail, rfl, rfl⟩
      · rw [← List.append_nil first]
        exact .cons (fun a ha => hslice a (List.mem_append_left _ ha)) (.empty stages)
      · exact .cons hslice (ih hrest)

/-- What follows a prefix of a cut list is cut. -/
theorem Sliced.right_of_append {stages : List β} : ∀ {first second : List α},
    Sliced admits stages (first ++ second) → Sliced admits stages second := by
  induction stages with
  | nil =>
    intro first second h
    exact sliced_nil_iff.2 (List.append_eq_nil_iff.1 (sliced_nil_iff.1 h)).2
  | cons stage stages ih =>
    intro first second h
    generalize hl : first ++ second = l at h
    cases h with
    | cons hslice hrest =>
      rename_i slice rest
      rcases List.append_eq_append_iff.1 hl with ⟨tail, rfl, rfl⟩ | ⟨tail, rfl, rfl⟩
      · exact .cons (fun a ha => hslice a (List.mem_append_right _ ha)) hrest
      · have hsecond := ih hrest
        rw [← List.nil_append second]
        exact .cons (fun a ha => absurd ha (by simp)) hsecond

variable (admits) in
/-- The greedy cut takes a prefix that can be cut. -/
theorem exists_sliced_leftAfter (stages : List β) : ∀ l : List α,
    ∃ taken, l = taken ++ leftAfter admits stages l ∧ Sliced admits stages taken := by
  induction stages with
  | nil => exact fun l => ⟨[], rfl, .nil⟩
  | cons stage stages ih =>
    intro l
    obtain ⟨taken, htaken, hsliced⟩ := ih (l.dropWhile (admits stage))
    refine ⟨l.takeWhile (admits stage) ++ taken, ?_,
      .cons (fun a ha => List.mem_takeWhile_imp ha) hsliced⟩
    rw [leftAfter_cons, List.append_assoc, ← htaken, List.takeWhile_append_dropWhile]

/-- A prefix whose elements are all admitted is part of what the stage takes. -/
theorem prefix_takeWhile {p : α → Bool} {slice l : List α} (hstart : slice <+: l)
    (hslice : ∀ a ∈ slice, p a = true) : slice <+: l.takeWhile p := by
  obtain ⟨rest, rfl⟩ := hstart
  rw [List.takeWhile_append_of_pos hslice]
  exact List.prefix_append _ _

theorem drop_length_takeWhile (p : α → Bool) (l : List α) :
    l.drop (l.takeWhile p).length = l.dropWhile p := by
  induction l with
  | nil => rfl
  | cons a l ih =>
    by_cases ha : p a = true
    · rw [List.takeWhile_cons_of_pos ha, List.dropWhile_cons_of_pos ha, List.length_cons,
        List.drop_succ_cons, ih]
    · rw [List.takeWhile_cons_of_neg ha, List.dropWhile_cons_of_neg ha]
      rfl

/-- **The greedy cut gets furthest**: it takes every prefix that can be cut. -/
theorem Sliced.prefix_of_leftAfter {stages : List β} : ∀ {l taken part : List α},
    l = taken ++ leftAfter admits stages l → part <+: l → Sliced admits stages part →
      part <+: taken := by
  induction stages with
  | nil =>
    intro l taken part _ _ hsliced
    rw [sliced_nil_iff.1 hsliced]
    exact List.nil_prefix
  | cons stage stages ih =>
    intro l taken part htaken hpart hsliced
    cases hsliced with
    | cons hslice hrest =>
      rename_i slice rest
      -- The stage takes at least the slice; what it takes beyond it is a prefix of the rest.
      obtain ⟨more, hmore⟩ := prefix_takeWhile ((List.prefix_append slice rest).trans hpart) hslice
      have hl : slice ++ (more ++ l.dropWhile (admits stage)) = l := by
        rw [← List.append_assoc, hmore, List.takeWhile_append_dropWhile]
      obtain ⟨taken', htaken', _⟩ := exists_sliced_leftAfter admits stages
        (l.dropWhile (admits stage))
      have htaken_eq : taken = slice ++ more ++ taken' := by
        have hsame : taken ++ leftAfter admits (stage :: stages) l =
            slice ++ more ++ taken' ++ leftAfter admits (stage :: stages) l := by
          rw [← htaken, leftAfter_cons, List.append_assoc, ← htaken', List.append_assoc, hl]
        exact List.append_cancel_right hsame
      rw [← hl, List.prefix_append_right_inj] at hpart
      rw [htaken_eq, List.append_assoc, List.prefix_append_right_inj]
      rcases List.prefix_or_prefix_of_prefix hpart (List.prefix_append more _) with hshort | hlong
      · exact hshort.trans (List.prefix_append _ _)
      · obtain ⟨beyond, rfl⟩ := hlong
        rw [List.prefix_append_right_inj] at hpart ⊢
        exact ih htaken' hpart hrest.right_of_append

/-- What the greedy cut takes is the longest prefix that can be cut. -/
theorem longestSliced_iff {stages : List β} {l taken left : List α} (h : l = taken ++ left) :
    LongestSliced admits stages taken left ↔ left = leftAfter admits stages l := by
  obtain ⟨greedy, hgreedy, hsliced⟩ := exists_sliced_leftAfter admits stages l
  refine ⟨fun hlongest => ?_, fun hleft => ?_⟩
  · have hstart := hlongest.sliced.prefix_of_leftAfter hgreedy ⟨left, h.symm⟩
    obtain ⟨more, rfl⟩ := hstart
    rw [h, List.append_assoc, List.append_cancel_left_eq] at hgreedy
    obtain _ | ⟨a, more⟩ := more
    · rw [h]
      exact hgreedy
    · -- The first element the greedy cut takes beyond the prefix extends it.
      have hcut : Sliced admits stages (taken ++ [a]) := by
        rw [← List.singleton_append, ← List.append_assoc] at hsliced
        exact hsliced.left_of_append
      exact absurd hcut (hlongest.longest a _ hgreedy)
  · obtain rfl : taken = greedy := by
      have hsame : taken ++ left = greedy ++ left := by
        rw [← h, hleft]
        exact hgreedy
      exact List.append_cancel_right hsame
    refine ⟨hsliced, fun a rest hrest hcut => ?_⟩
    have hstart := hcut.prefix_of_leftAfter hgreedy ⟨rest, by simp [h, hrest]⟩
    have hlength := hstart.length_le
    simp at hlength

end Lib
