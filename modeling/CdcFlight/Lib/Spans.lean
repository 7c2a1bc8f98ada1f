import Mathlib.Algebra.Order.Field.Rat
import Mathlib.Data.List.Sort
import Mathlib.Data.Prod.Lex
import Mathlib.Order.Interval.Set.LinearOrder
import Mathlib.Order.WithBot

/-!
# Spans

Lists of intervals over a linear order, each from a first position to one that is no longer in it.
Sorted by their first positions and merged in one pass, they come to a normal form, in which no two
touch; the normal form is determined by the positions that are covered.

The positions for values of an order are its cuts, before and after each value and at both ends. In
a dense order without ends, a normal form is determined by the values that it covers.

## Main definitions

* `Lib.Span`, `Lib.Span.covered`, `Lib.Span.Normal`.
* `Lib.Span.absorb`, `Lib.Span.normalize`: the merge.
* `Lib.Cut`: the positions before and after the values of an order.

## Main results

* `Lib.Span.normal_normalize`, `Lib.Span.covered_normalize`.
* `Lib.Span.Normal.eq_of_covered_eq`: normal forms that cover the same are the same.
* `Lib.Span.covered_eq_iff`: what is covered is determined by the values.
-/

namespace Lib

universe u

/-- The positions from one to another, which is not among them. -/
@[ext]
structure Span (C : Type u) where
  lo : C
  hi : C
deriving DecidableEq

namespace Span

variable {C : Type u} [LinearOrder C]

/-- The positions of a span. -/
def positions (s : Span C) : Set C := Set.Ico s.lo s.hi

/-- A span with a position. -/
def Proper (s : Span C) : Prop := s.lo < s.hi

instance (s : Span C) : Decidable s.Proper := inferInstanceAs (Decidable (s.lo < s.hi))

/-- The positions of some span. -/
def covered (l : List (Span C)) : Set C := {c | ∃ s ∈ l, c ∈ s.positions}

/-- Spans in order that do not touch. -/
structure Normal (l : List (Span C)) : Prop where
  proper : ∀ s ∈ l, s.Proper
  apart : l.Pairwise fun s t => s.hi < t.lo

/-! ### Merging -/

/-- Take in the next span; the last one stands first. -/
def absorb : List (Span C) → Span C → List (Span C)
  | [], s => [s]
  | t :: done, s => if s.lo ≤ t.hi then ⟨t.lo, max t.hi s.hi⟩ :: done else s :: t :: done

/-- Spans, sorted and merged. -/
def normalize (l : List (Span C)) : List (Span C) :=
  ((l.mergeSort fun s t => s.lo ≤ t.lo).foldl absorb []).reverse

@[simp] theorem covered_nil : covered ([] : List (Span C)) = ∅ := by
  ext c
  simp [covered]

@[simp] theorem covered_cons (s : Span C) (l : List (Span C)) :
    covered (s :: l) = s.positions ∪ covered l := by
  ext c
  simp [covered]

theorem covered_congr {l l' : List (Span C)} (h : ∀ s, s ∈ l ↔ s ∈ l') :
    covered l = covered l' := by
  ext c
  exact exists_congr fun s => and_congr_left' (h s)

/-- What has been merged, and what is to come. -/
structure Merging (done rest : List (Span C)) : Prop where
  proper : ∀ s ∈ done, s.Proper
  apart : done.Pairwise fun s t => t.hi < s.lo
  started : ∀ t ∈ done.head?, ∀ s ∈ rest, t.lo ≤ s.lo

section Step

variable {done rest : List (Span C)} {s t : Span C}

/-- A span that starts in another or at its end. -/
theorem positions_join (hle : t.lo ≤ s.lo) (htouch : s.lo ≤ t.hi) :
    (⟨t.lo, max t.hi s.hi⟩ : Span C).positions = t.positions ∪ s.positions := by
  ext c
  simp only [positions, Set.mem_Ico, Set.mem_union, lt_max_iff]
  constructor
  · rintro ⟨hlo, hhi⟩
    by_cases hc : c < t.hi
    · exact Or.inl ⟨hlo, hc⟩
    · exact Or.inr ⟨htouch.trans (not_lt.1 hc), hhi.resolve_left hc⟩
  · rintro (⟨hlo, hhi⟩ | ⟨hlo, hhi⟩)
    · exact ⟨hlo, Or.inl hhi⟩
    · exact ⟨hle.trans hlo, Or.inr hhi⟩

/-- **One step of the merge.** -/
theorem Merging.absorb (h : Merging done (s :: rest)) (hs : s.Proper)
    (hrest : ∀ t ∈ rest, s.lo ≤ t.lo) :
    Merging (absorb done s) rest ∧ covered (absorb done s) = covered done ∪ s.positions := by
  obtain ⟨hproper, hapart, hstarted⟩ := h
  obtain _ | ⟨t, done⟩ := done
  · refine ⟨⟨?_, List.pairwise_singleton _ _, ?_⟩, ?_⟩
    · rintro s' hs'
      rw [List.mem_singleton.1 hs']
      exact hs
    · rintro t ⟨⟩
      exact hrest
    · rw [Span.absorb, covered_cons, covered_nil, Set.union_comm]
  · have ht : t.Proper := hproper t List.mem_cons_self
    have hle : t.lo ≤ s.lo := hstarted t rfl s List.mem_cons_self
    have hdone : ∀ u ∈ done, u.hi < t.lo := (List.pairwise_cons.1 hapart).1
    rw [Span.absorb]
    split_ifs with htouch
    · refine ⟨⟨?_, List.pairwise_cons.2 ⟨hdone, (List.pairwise_cons.1 hapart).2⟩, ?_⟩, ?_⟩
      · rintro u (_ | ⟨_, hu⟩)
        · exact lt_of_lt_of_le ht (le_max_left _ _)
        · exact hproper u (List.mem_cons_of_mem _ hu)
      · rintro u ⟨⟩ v hv
        exact hstarted t rfl v (List.mem_cons_of_mem _ hv)
      · rw [covered_cons, covered_cons, positions_join hle htouch, Set.union_right_comm]
    · refine ⟨⟨?_, List.pairwise_cons.2 ⟨?_, hapart⟩, ?_⟩, ?_⟩
      · rintro u (_ | ⟨_, hu⟩)
        · exact hs
        · exact hproper u hu
      · rintro u (_ | ⟨_, hu⟩)
        · exact not_le.1 htouch
        · exact (hdone u hu).trans_le hle
      · rintro u ⟨⟩
        exact hrest
      · rw [covered_cons, Set.union_comm]

end Step

/-- **The whole merge**, by induction on the sorted spans. -/
theorem Merging.foldl {done rest : List (Span C)} (h : Merging done rest)
    (hproper : ∀ s ∈ rest, s.Proper) (hsorted : rest.Pairwise fun s t => s.lo ≤ t.lo) :
    Merging (rest.foldl Span.absorb done) [] ∧
      covered (rest.foldl Span.absorb done) = covered done ∪ covered rest := by
  induction rest generalizing done with
  | nil => exact ⟨h, by rw [covered_nil, Set.union_empty, List.foldl_nil]⟩
  | cons s rest ih =>
    obtain ⟨hfirst, hsorted⟩ := List.pairwise_cons.1 hsorted
    obtain ⟨hstep, hcovered⟩ := h.absorb (hproper s List.mem_cons_self) hfirst
    obtain ⟨hrun, hrest⟩ := ih hstep (fun t ht => hproper t (List.mem_cons_of_mem _ ht)) hsorted
    refine ⟨hrun, ?_⟩
    rw [List.foldl_cons, hrest, hcovered, covered_cons, Set.union_assoc]

section Normalize

variable {l l' : List (Span C)}

theorem merging_normalize (h : ∀ s ∈ l, s.Proper) :
    Merging (normalize l).reverse [] ∧ covered (normalize l).reverse = covered l := by
  have hsorted : (l.mergeSort fun s t => s.lo ≤ t.lo).Pairwise fun s t => s.lo ≤ t.lo := by
    refine (@List.pairwise_mergeSort _ (fun s t : Span C => decide (s.lo ≤ t.lo)) ?_ ?_ l).imp
      fun hst => of_decide_eq_true hst
    · intro s t u hst htu
      exact decide_eq_true ((of_decide_eq_true hst).trans (of_decide_eq_true htu))
    · intro s t
      rw [Bool.or_eq_true, decide_eq_true_iff, decide_eq_true_iff]
      exact le_total _ _
  have hmem (s : Span C) : s ∈ l.mergeSort (fun s t => s.lo ≤ t.lo) ↔ s ∈ l :=
    (List.mergeSort_perm l _).mem_iff
  have hstart : Merging [] (l.mergeSort fun s t => s.lo ≤ t.lo) := ⟨nofun, .nil, nofun⟩
  obtain ⟨hrun, hcovered⟩ := hstart.foldl (fun s hs => h s ((hmem s).1 hs)) hsorted
  rw [normalize, List.reverse_reverse]
  refine ⟨hrun, hcovered.trans ?_⟩
  rw [covered_nil, Set.empty_union, covered_congr hmem]

/-- **The merge gives a normal form.** -/
theorem normal_normalize (h : ∀ s ∈ l, s.Proper) : Normal (normalize l) := by
  obtain ⟨hrun, -⟩ := merging_normalize h
  exact ⟨fun s hs => hrun.proper s (List.mem_reverse.2 hs), List.pairwise_reverse.1 hrun.apart⟩

/-- **The merge covers what it is given.** -/
theorem covered_normalize (h : ∀ s ∈ l, s.Proper) : covered (normalize l) = covered l := by
  rw [← (merging_normalize h).2]
  exact covered_congr fun s => List.mem_reverse.symm

/-- What is covered lies at or after the first position. -/
theorem Normal.lo_le {s : Span C} (h : Normal (s :: l)) {c : C} (hc : c ∈ covered (s :: l)) :
    s.lo ≤ c := by
  obtain ⟨t, ht, hlo, -⟩ := hc
  obtain _ | ⟨_, ht⟩ := ht
  · exact hlo
  · have hapart := (List.pairwise_cons.1 h.apart).1 t ht
    exact ((h.proper s List.mem_cons_self).trans hapart).le.trans hlo

theorem Normal.tail {s : Span C} (h : Normal (s :: l)) : Normal l :=
  ⟨fun t ht => h.proper t (List.mem_cons_of_mem _ ht), (List.pairwise_cons.1 h.apart).2⟩

/-- Two spans are the same, or one ends before the other starts. -/
theorem Normal.trichotomy (h : Normal l) {s t : Span C} (hs : s ∈ l) (ht : t ∈ l) :
    s = t ∨ s.hi < t.lo ∨ t.hi < s.lo := by
  have hforward : l.Pairwise fun s t => s = t ∨ s.hi < t.lo ∨ t.hi < s.lo :=
    h.apart.imp fun hlt => Or.inr (Or.inl hlt)
  have hbackward : l.Pairwise (flip fun s t => s = t ∨ s.hi < t.lo ∨ t.hi < s.lo) :=
    h.apart.imp fun hlt => Or.inr (Or.inr hlt)
  refine List.Pairwise.forall_of_forall_of_flip (fun s _ => ?_) hforward hbackward hs ht
  exact Or.inl rfl

/-- The end of a span is not covered. -/
theorem Normal.hi_notMem (h : Normal l) {s : Span C} (hs : s ∈ l) : s.hi ∉ covered l := by
  rintro ⟨t, ht, hlo, hhi⟩
  rcases h.trichotomy hs ht with rfl | hlt | hlt
  · exact lt_irrefl _ hhi
  · exact absurd hlo (not_le.2 hlt)
  · exact lt_irrefl _ ((hhi.trans hlt).trans (h.proper s hs))

/-- What the other spans cover lies after the first. -/
theorem Normal.mem_tail_iff {s : Span C} (h : Normal (s :: l)) {c : C} :
    c ∈ covered l ↔ c ∈ covered (s :: l) ∧ s.hi ≤ c := by
  rw [covered_cons]
  constructor
  · rintro ⟨t, ht, hlo, hhi⟩
    exact ⟨Or.inr ⟨t, ht, hlo, hhi⟩, ((List.pairwise_cons.1 h.apart).1 t ht).le.trans hlo⟩
  · rintro ⟨hs | hc, hle⟩
    · exact absurd hs.2 (not_lt.2 hle)
    · exact hc

/-- The first spans of normal forms that cover the same. -/
theorem Normal.head_eq {s s' : Span C} (h : Normal (s :: l)) (h' : Normal (s' :: l'))
    (hcovered : covered (s :: l) = covered (s' :: l')) : s = s' := by
  have hmem {t : Span C} {m : List (Span C)} (ht : Normal (t :: m)) {c : C} (hlo : t.lo ≤ c)
      (hhi : c < t.hi) : c ∈ covered (t :: m) := ⟨t, List.mem_cons_self, hlo, hhi⟩
  have hlo : s.lo = s'.lo := by
    refine le_antisymm (h.lo_le ?_) (h'.lo_le ?_)
    · rw [hcovered]
      exact hmem h' le_rfl (h'.proper s' List.mem_cons_self)
    · rw [← hcovered]
      exact hmem h le_rfl (h.proper s List.mem_cons_self)
  refine Span.ext hlo (le_antisymm ?_ ?_)
  · by_contra hlt
    have hin := hmem h (hlo ▸ (h'.proper s' List.mem_cons_self).le) (not_le.1 hlt)
    rw [hcovered] at hin
    exact h'.hi_notMem List.mem_cons_self hin
  · by_contra hlt
    have hin := hmem h' (hlo ▸ (h.proper s List.mem_cons_self).le) (not_le.1 hlt)
    rw [← hcovered] at hin
    exact h.hi_notMem List.mem_cons_self hin

/-- **Normal forms that cover the same are the same.** -/
theorem Normal.eq_of_covered_eq (h : Normal l) (h' : Normal l')
    (hcovered : covered l = covered l') : l = l' := by
  have hnonempty {s : Span C} {m : List (Span C)} (hm : Normal (s :: m)) :
      covered (s :: m) ≠ ∅ := by
    refine Set.nonempty_iff_ne_empty.1 ⟨s.lo, s, List.mem_cons_self, le_rfl, ?_⟩
    exact hm.proper s List.mem_cons_self
  induction l generalizing l' with
  | nil =>
    obtain _ | ⟨s', l'⟩ := l'
    · rfl
    · rw [covered_nil] at hcovered
      exact absurd hcovered.symm (hnonempty h')
  | cons s l ih =>
    obtain _ | ⟨s', l'⟩ := l'
    · rw [covered_nil] at hcovered
      exact absurd hcovered (hnonempty h)
    · obtain rfl := h.head_eq h' hcovered
      refine congrArg (s :: ·) (ih h.tail h'.tail (Set.ext fun c => ?_))
      rw [h.mem_tail_iff, h'.mem_tail_iff, hcovered]

theorem normalize_eq_iff (h : ∀ s ∈ l, s.Proper) (h' : ∀ s ∈ l', s.Proper) :
    normalize l = normalize l' ↔ covered l = covered l' := by
  constructor
  · intro heq
    rw [← covered_normalize h, heq, covered_normalize h']
  · intro heq
    refine (normal_normalize h).eq_of_covered_eq (normal_normalize h') ?_
    rw [covered_normalize h, heq, covered_normalize h']

/-- A normal form stays as it is. -/
theorem normalize_of_normal (h : Normal l) : normalize l = l :=
  (normal_normalize h.proper).eq_of_covered_eq h (covered_normalize h.proper)

end Normalize

end Span

/-! ### Cuts -/

/-- The positions before and after the values of an order, and at both ends. -/
abbrev Cut (β : Type u) := WithBot (WithTop (β ×ₗ Bool))

namespace Cut

variable {β : Type u}

/-- The position before a value. -/
def before (q : β) : Cut β := ((toLex (q, false) : β ×ₗ Bool) : WithTop (β ×ₗ Bool))

/-- The position after a value. -/
def after (q : β) : Cut β := ((toLex (q, true) : β ×ₗ Bool) : WithTop (β ×ₗ Bool))

theorem before_injective : Function.Injective (before : β → Cut β) := by
  intro q r h
  simpa [before] using h

/-- The kinds of cuts. -/
theorem cases (c : Cut β) : c = ⊥ ∨ (∃ q, c = before q) ∨ (∃ q, c = after q) ∨ c = ⊤ := by
  induction c using WithBot.recBotCoe with
  | bot => exact Or.inl rfl
  | coe c =>
    induction c using WithTop.recTopCoe with
    | top => exact Or.inr (Or.inr (Or.inr rfl))
    | coe c =>
      obtain ⟨q, b⟩ := c
      cases b with
      | false => exact Or.inr (Or.inl ⟨q, rfl⟩)
      | true => exact Or.inr (Or.inr (Or.inl ⟨q, rfl⟩))

variable [LinearOrder β] {q r : β}

@[simp] theorem before_lt_before : before q < before r ↔ q < r := by
  simp [before, Prod.Lex.lt_iff]

@[simp] theorem after_lt_after : after q < after r ↔ q < r := by
  simp [after, Prod.Lex.lt_iff]

@[simp] theorem after_lt_before : after q < before r ↔ q < r := by
  simp [before, after, Prod.Lex.lt_iff]

@[simp] theorem before_lt_after : before q < after r ↔ q ≤ r := by
  simp [before, after, Prod.Lex.lt_iff, le_iff_lt_or_eq]

@[simp] theorem before_lt_top : before q < ⊤ := WithBot.coe_lt_coe.2 (WithTop.coe_lt_top _)

@[simp] theorem after_lt_top : after q < ⊤ := WithBot.coe_lt_coe.2 (WithTop.coe_lt_top _)

@[simp] theorem bot_lt_before : ⊥ < before q := WithBot.bot_lt_coe _

@[simp] theorem bot_lt_after : ⊥ < after q := WithBot.bot_lt_coe _

/-- In a dense order without ends there is a value between two cuts. -/
theorem exists_before [DenselyOrdered β] [NoMinOrder β] [NoMaxOrder β] [Nonempty β] {c d : Cut β}
    (h : c < d) : ∃ q, c ≤ before q ∧ before q < d := by
  rcases c.cases with rfl | ⟨q, rfl⟩ | ⟨q, rfl⟩ | rfl
  · rcases d.cases with rfl | ⟨r, rfl⟩ | ⟨r, rfl⟩ | rfl
    · exact absurd h (lt_irrefl _)
    · obtain ⟨x, hx⟩ := exists_lt r
      exact ⟨x, bot_le, before_lt_before.2 hx⟩
    · exact ⟨r, bot_le, before_lt_after.2 le_rfl⟩
    · exact ⟨Classical.arbitrary β, bot_le, before_lt_top⟩
  · exact ⟨q, le_rfl, h⟩
  · rcases d.cases with rfl | ⟨r, rfl⟩ | ⟨r, rfl⟩ | rfl
    · exact absurd h not_lt_bot
    · obtain ⟨x, hqx, hxr⟩ := exists_between (after_lt_before.1 h)
      exact ⟨x, (after_lt_before.2 hqx).le, before_lt_before.2 hxr⟩
    · exact ⟨r, (after_lt_before.2 (after_lt_after.1 h)).le, before_lt_after.2 le_rfl⟩
    · obtain ⟨x, hx⟩ := exists_gt q
      exact ⟨x, (after_lt_before.2 hx).le, before_lt_top⟩
  · exact absurd h not_top_lt

end Cut

namespace Span

section Values

variable {β : Type u} [LinearOrder β] {l l' : List (Span (Cut β))}

/-- The values that are covered. -/
def values (l : List (Span (Cut β))) : Set β := {q | Cut.before q ∈ covered l}

/-- The positions next to one that is not covered are not covered either. -/
theorem exists_gap {C : Type u} [LinearOrder C] {l : List (Span C)} {c e : C} (hc : c ∉ covered l)
    (he : c < e) : ∃ d, c < d ∧ d ≤ e ∧ ∀ x, c ≤ x → x < d → x ∉ covered l := by
  induction l with
  | nil => exact ⟨e, he, le_rfl, fun x _ _ => by simp⟩
  | cons s l ih =>
    rw [covered_cons, Set.mem_union, not_or] at hc
    obtain ⟨d, hcd, hde, hgap⟩ := ih hc.2
    by_cases hs : c < s.lo
    · refine ⟨min d s.lo, lt_min hcd hs, (min_le_left _ _).trans hde, fun x hcx hx => ?_⟩
      rw [covered_cons, Set.mem_union, not_or]
      obtain ⟨hxd, hxs⟩ := lt_min_iff.1 hx
      exact ⟨fun hin => absurd hin.1 (not_le.2 hxs), hgap x hcx hxd⟩
    · have hhi : s.hi ≤ c := not_lt.1 fun hlt => hc.1 ⟨not_lt.1 hs, hlt⟩
      refine ⟨d, hcd, hde, fun x hcx hx => ?_⟩
      rw [covered_cons, Set.mem_union, not_or]
      exact ⟨fun hin => absurd hin.2 (not_lt.2 (hhi.trans hcx)), hgap x hcx hx⟩

variable [DenselyOrdered β] [NoMinOrder β] [NoMaxOrder β] [Nonempty β]

theorem covered_subset_of_values (h : values l ⊆ values l') : covered l ⊆ covered l' := by
  rintro c ⟨s, hs, hlo, hhi⟩
  by_contra hc
  obtain ⟨d, hcd, hde, hgap⟩ := exists_gap hc hhi
  obtain ⟨q, hcq, hqd⟩ := Cut.exists_before hcd
  exact hgap _ hcq hqd (h ⟨s, hs, hlo.trans hcq, hqd.trans_le hde⟩)

/-- **What is covered is determined by the values.** -/
theorem covered_eq_iff : covered l = covered l' ↔ values l = values l' := by
  constructor
  · intro h
    rw [values, h, values]
  · intro h
    exact (covered_subset_of_values h.subset).antisymm (covered_subset_of_values h.superset)

theorem normalize_eq_iff_values (h : ∀ s ∈ l, s.Proper) (h' : ∀ s ∈ l', s.Proper) :
    normalize l = normalize l' ↔ values l = values l' := by
  rw [normalize_eq_iff h h', covered_eq_iff]

end Values

end Span

end Lib
