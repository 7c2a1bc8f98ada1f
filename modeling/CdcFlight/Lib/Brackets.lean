import Mathlib

/-!
# Lists outside of brackets

Texts with parentheses that are read character by character, with a counter for the depth. The
counter knows nothing of quotes. A text is bracketed when its parentheses balance, none closes that
was not opened, and no comma is outside of them; a list of texts can be read back at its outer
commas exactly when they are bracketed.

## Main definitions

* `Lib.Bracketed`: the texts that the counter can pass over.
* `Lib.splitOuter`: the parts of a text between the commas at depth zero.
* `Lib.closesAtEnd`: the bracket that is open is closed by the last character.

## Main results

* `Lib.splitOuter_intercalate`, `Lib.closesAtEnd_intercalate`, `Lib.bracketed_of_split`.
* `Lib.map_filterMap_eq`: parts that are read without a loss.
-/

namespace Lib

/-- The depth after a text, unless a bracket closes that was not opened or a comma is outside. -/
def outerDepth : ℕ → List Char → Option ℕ
  | d, [] => some d
  | d, c :: text =>
    if c = '(' then outerDepth (d + 1) text
    else if c = ')' then if d = 0 then none else outerDepth (d - 1) text
    else if c = ',' ∧ d = 0 then none
    else outerDepth d text

/-- The text leaves the depth as it is, with all its commas inside of its brackets. -/
def Bracketed (text : List Char) : Prop := outerDepth 0 text = some 0

instance (text : List Char) : Decidable (Bracketed text) :=
  inferInstanceAs (Decidable (outerDepth 0 text = some 0))

/-- The parts of a text between its commas at depth zero, the first one with what was read of it. -/
def splitOuter : ℤ → List Char → List Char → List (List Char)
  | _, part, [] => [part]
  | depth, part, c :: text =>
    if c = '(' then splitOuter (depth + 1) (part ++ [c]) text
    else if c = ')' then splitOuter (depth - 1) (part ++ [c]) text
    else if c = ',' ∧ depth = 0 then part :: splitOuter depth [] text
    else splitOuter depth (part ++ [c]) text

/-- The first return to depth zero is at the last character. -/
def closesAtEnd : ℤ → List Char → Bool
  | _, [] => false
  | depth, c :: text =>
    if c = '(' then closesAtEnd (depth + 1) text
    else if c = ')' then if depth - 1 = 0 then text.isEmpty else closesAtEnd (depth - 1) text
    else closesAtEnd depth text

/-! ### Characters -/

section Characters

variable {c : Char} {d d' : ℕ} {z : ℤ} {x y text part : List Char}

/-- A character is a bracket, a comma or plain. -/
theorem bracket_cases (c : Char) : c = '(' ∨ c = ')' ∨ c = ',' ∨ c ≠ '(' ∧ c ≠ ')' ∧ c ≠ ',' := by
  tauto

@[simp] theorem outerDepth_nil : outerDepth d [] = some d := rfl

@[simp] theorem outerDepth_open : outerDepth d ('(' :: x) = outerDepth (d + 1) x := rfl

@[simp] theorem outerDepth_close : outerDepth (d + 1) (')' :: x) = outerDepth d x := rfl

@[simp] theorem outerDepth_close_zero : outerDepth 0 (')' :: x) = none := rfl

@[simp] theorem outerDepth_comma : outerDepth (d + 1) (',' :: x) = outerDepth (d + 1) x := rfl

@[simp] theorem outerDepth_comma_zero : outerDepth 0 (',' :: x) = none := rfl

theorem outerDepth_plain (h : c ≠ '(' ∧ c ≠ ')' ∧ c ≠ ',') :
    outerDepth d (c :: x) = outerDepth d x := by
  rw [outerDepth, if_neg h.1, if_neg h.2.1, if_neg fun h' => h.2.2 h'.1]

theorem splitOuter_open :
    splitOuter z part ('(' :: text) = splitOuter (z + 1) (part ++ ['(']) text := rfl

theorem splitOuter_close :
    splitOuter z part (')' :: text) = splitOuter (z - 1) (part ++ [')']) text := rfl

theorem splitOuter_comma (h : z ≠ 0) :
    splitOuter z part (',' :: text) = splitOuter z (part ++ [',']) text := by
  rw [splitOuter, if_neg (by decide), if_neg (by decide), if_neg fun h' => h h'.2]

theorem splitOuter_plain (h : c ≠ '(' ∧ c ≠ ')' ∧ c ≠ ',') :
    splitOuter z part (c :: text) = splitOuter z (part ++ [c]) text := by
  rw [splitOuter, if_neg h.1, if_neg h.2.1, if_neg fun h' => h.2.2 h'.1]

theorem closesAtEnd_open : closesAtEnd z ('(' :: text) = closesAtEnd (z + 1) text := rfl

theorem closesAtEnd_close (h : z ≠ 1) :
    closesAtEnd z (')' :: text) = closesAtEnd (z - 1) text := by
  rw [closesAtEnd, if_neg (by decide), if_pos rfl, if_neg (by omega)]

theorem closesAtEnd_close_one : closesAtEnd 1 (')' :: text) = text.isEmpty := rfl

theorem closesAtEnd_plain (h : c ≠ '(' ∧ c ≠ ')') :
    closesAtEnd z (c :: text) = closesAtEnd z text := by
  rw [closesAtEnd, if_neg h.1, if_neg h.2]

/-! ### Bracketed texts -/

theorem outerDepth_append : outerDepth d (x ++ y) = (outerDepth d x).bind (outerDepth · y) := by
  induction x generalizing d with
  | nil => rfl
  | cons c x ih =>
    rw [List.cons_append]
    rcases bracket_cases c with rfl | rfl | rfl | hc
    · exact ih
    · cases d with
      | zero => rfl
      | succ d => exact ih
    · cases d with
      | zero => rfl
      | succ d => exact ih
    · rw [outerDepth_plain hc, outerDepth_plain hc]
      exact ih

theorem Bracketed.append (hx : Bracketed x) (hy : Bracketed y) : Bracketed (x ++ y) := by
  unfold Bracketed at hx hy ⊢
  rw [outerDepth_append, hx]
  exact hy

/-- A text without brackets, and without commas where they count. -/
theorem outerDepth_of_notMem (ho : '(' ∉ x) (hc : ')' ∉ x) (hcomma : ',' ∉ x ∨ d ≠ 0) :
    outerDepth d x = some d := by
  induction x with
  | nil => rfl
  | cons c x ih =>
    rw [List.mem_cons, not_or] at ho hc
    rw [List.mem_cons, not_or] at hcomma
    rw [outerDepth, if_neg (Ne.symm ho.1), if_neg (Ne.symm hc.1), if_neg (by tauto)]
    exact ih ho.2 hc.2 (hcomma.imp_left And.right)

theorem outerDepth_succ (h : outerDepth d x = some d') : outerDepth (d + 1) x = some (d' + 1) := by
  induction x generalizing d with
  | nil =>
    obtain rfl := Option.some.inj h
    rfl
  | cons c x ih =>
    rcases bracket_cases c with rfl | rfl | rfl | hc
    · exact ih h
    · cases d with
      | zero => cases h
      | succ d => exact ih h
    · cases d with
      | zero => cases h
      | succ d => exact ih h
    · rw [outerDepth_plain hc] at h ⊢
      exact ih h

/-- Inside of brackets a list may have commas. -/
theorem outerDepth_intercalate {xs : List (List Char)} (h : ∀ x ∈ xs, outerDepth 1 x = some 1) :
    outerDepth 1 (List.intercalate [','] xs) = some 1 := by
  induction xs with
  | nil => rfl
  | cons x xs ih =>
    cases xs with
    | nil =>
      rw [List.intercalate_singleton]
      exact h x List.mem_cons_self
    | cons y ys =>
      rw [List.intercalate_cons_cons, outerDepth_append, outerDepth_append,
        h x List.mem_cons_self]
      exact ih fun z hz => h z (List.mem_cons_of_mem _ hz)

/-- A text in brackets. -/
theorem bracketed_parens (h : outerDepth 1 x = some 1) : Bracketed ('(' :: (x ++ [')'])) := by
  unfold Bracketed
  rw [outerDepth_open, outerDepth_append, h]
  rfl

/-! ### Reading back -/

theorem splitOuter_append (h : outerDepth d x = some d') :
    splitOuter d part (x ++ text) = splitOuter d' (part ++ x) text := by
  induction x generalizing d part with
  | nil =>
    obtain rfl := Option.some.inj h
    rw [List.nil_append, List.append_nil]
  | cons c x ih =>
    have hpart : part ++ c :: x = part ++ [c] ++ x := by rw [List.append_assoc]; rfl
    rw [List.cons_append, hpart]
    rcases bracket_cases c with rfl | rfl | rfl | hc
    · rw [splitOuter_open]
      exact ih h
    · cases d with
      | zero => cases h
      | succ d =>
        rw [splitOuter_close, Nat.cast_succ, add_sub_cancel_right]
        exact ih h
    · cases d with
      | zero => cases h
      | succ d =>
        rw [splitOuter_comma (by omega)]
        exact ih h
    · rw [splitOuter_plain hc]
      rw [outerDepth_plain hc] at h
      exact ih h

theorem splitOuter_bracketed (h : Bracketed x) (hrest : text = [] ∨ ∃ rest, text = ',' :: rest) :
    splitOuter 0 [] (x ++ text) =
      x :: match text with
        | [] => []
        | _ :: rest => splitOuter 0 [] rest := by
  have hread : splitOuter ((0 : ℕ) : ℤ) [] (x ++ text) = splitOuter ((0 : ℕ) : ℤ) ([] ++ x) text :=
    splitOuter_append h
  refine hread.trans ?_
  rcases hrest with rfl | ⟨rest, rfl⟩ <;> rfl

/-- **A list of bracketed texts is read back.** -/
theorem splitOuter_intercalate {xs : List (List Char)} (hne : xs ≠ [])
    (h : ∀ x ∈ xs, Bracketed x) : splitOuter 0 [] (List.intercalate [','] xs) = xs := by
  induction xs with
  | nil => exact absurd rfl hne
  | cons x xs ih =>
    have hx := h x List.mem_cons_self
    cases xs with
    | nil =>
      have hread := splitOuter_bracketed hx (Or.inl rfl)
      rw [List.append_nil] at hread
      rw [List.intercalate_singleton]
      exact hread
    | cons y ys =>
      rw [List.intercalate_cons_cons, List.append_assoc]
      refine (splitOuter_bracketed hx (Or.inr ⟨_, rfl⟩)).trans ?_
      have hrest : splitOuter 0 [] (List.intercalate [','] (y :: ys)) = y :: ys :=
        ih (List.cons_ne_nil _ _) fun z hz => h z (List.mem_cons_of_mem _ hz)
      exact congrArg (x :: ·) hrest

theorem closesAtEnd_append (h : outerDepth d x = some d') :
    closesAtEnd (d + 1) (x ++ text) = closesAtEnd (d' + 1) text := by
  induction x generalizing d with
  | nil =>
    obtain rfl := Option.some.inj h
    rfl
  | cons c x ih =>
    rw [List.cons_append]
    rcases bracket_cases c with rfl | rfl | rfl | hc
    · exact ih h
    · cases d with
      | zero => cases h
      | succ d =>
        rw [closesAtEnd_close (by omega), add_sub_cancel_right, Nat.cast_succ]
        exact ih h
    · cases d with
      | zero => cases h
      | succ d => exact ih h
    · rw [closesAtEnd_plain ⟨hc.1, hc.2.1⟩]
      rw [outerDepth_plain hc] at h
      exact ih h

/-- A list of bracketed texts is passed over. -/
theorem closesAtEnd_intercalate {xs : List (List Char)} (h : ∀ x ∈ xs, Bracketed x) :
    closesAtEnd 1 (List.intercalate [','] xs ++ [')']) = true := by
  have hskip {x text : List Char} (hx : Bracketed x) :
      closesAtEnd 1 (x ++ text) = closesAtEnd 1 text := by
    have hpass : closesAtEnd (((0 : ℕ) : ℤ) + 1) (x ++ text) =
        closesAtEnd (((0 : ℕ) : ℤ) + 1) text := closesAtEnd_append hx
    exact hpass
  induction xs with
  | nil => rfl
  | cons x xs ih =>
    have hx := h x List.mem_cons_self
    cases xs with
    | nil =>
      rw [List.intercalate_singleton, hskip hx]
      rfl
    | cons y ys =>
      rw [List.intercalate_cons_cons, List.append_assoc, List.append_assoc, hskip hx]
      exact ih fun z hz => h z (List.mem_cons_of_mem _ hz)

/-- Only a closing bracket closes at the end. -/
theorem getLast?_of_closesAtEnd (h : closesAtEnd z text = true) : text.getLast? = some ')' := by
  induction text generalizing z with
  | nil => cases h
  | cons c text ih =>
    have hrest {z' : ℤ} (h' : closesAtEnd z' text = true) : (c :: text).getLast? = some ')' := by
      rw [List.getLast?_cons, ih h']
      rfl
    rw [closesAtEnd] at h
    split_ifs at h with ho hc hone
    · exact hrest h
    · rw [hc, List.isEmpty_iff.1 h]
      rfl
    · exact hrest h
    · exact hrest h

/-- The characters of a list of texts, the separators included. -/
theorem length_intercalate {xs : List (List Char)} (hne : xs ≠ []) :
    (List.intercalate [c] xs).length + 1 = (xs.map fun x => x.length + 1).sum := by
  induction xs with
  | nil => exact absurd rfl hne
  | cons x xs ih =>
    cases xs with
    | nil => rw [List.intercalate_singleton]; rfl
    | cons y ys =>
      rw [List.intercalate_cons_cons, List.length_append, List.length_append, List.map_cons,
        List.sum_cons, ← ih (List.cons_ne_nil _ _), List.length_singleton]
      omega

/-- A text is cut at commas, and nothing else is lost. -/
theorem length_splitOuter :
    ((splitOuter z part text).map fun x => x.length + 1).sum = part.length + text.length + 1 := by
  induction text generalizing z part with
  | nil => rfl
  | cons c text ih =>
    rw [splitOuter]
    split_ifs
    · rw [ih, List.length_append, List.length_singleton, List.length_cons]
      omega
    · rw [ih, List.length_append, List.length_singleton, List.length_cons]
      omega
    · rw [List.map_cons, List.sum_cons, ih, List.length_nil, List.length_cons]
      omega
    · rw [ih, List.length_append, List.length_singleton, List.length_cons]
      omega

/-! ### What can be read back -/

/-- The depth after a text without a comma at depth zero. -/
def freeDepth : ℤ → List Char → Option ℤ
  | z, [] => some z
  | z, c :: text =>
    if c = '(' then freeDepth (z + 1) text
    else if c = ')' then freeDepth (z - 1) text
    else if c = ',' ∧ z = 0 then none
    else freeDepth z text

/-- The first part that is read. -/
theorem splitOuter_eq_cons {q : List Char} {rest : List (List Char)}
    (h : splitOuter z part text = q :: rest) : ∃ x z', q = part ++ x ∧ freeDepth z x = some z' ∧
      (rest = [] ∧ text = x ∨
        z' = 0 ∧ ∃ text', text = x ++ ',' :: text' ∧ splitOuter 0 [] text' = rest) := by
  induction text generalizing z part with
  | nil =>
    rw [splitOuter, List.cons.injEq] at h
    exact ⟨[], z, by rw [List.append_nil, h.1], rfl, Or.inl ⟨h.2.symm, rfl⟩⟩
  | cons c text ih =>
    rw [splitOuter] at h
    have hstep {z' : ℤ} (hfree : ∀ x, freeDepth z (c :: x) = freeDepth z' x)
        (hread : splitOuter z' (part ++ [c]) text = q :: rest) : ∃ x z', q = part ++ x ∧
        freeDepth z x = some z' ∧ (rest = [] ∧ c :: text = x ∨
          z' = 0 ∧ ∃ text', c :: text = x ++ ',' :: text' ∧ splitOuter 0 [] text' = rest) := by
      obtain ⟨x, z'', hq, hdepth, hrest⟩ := ih hread
      refine ⟨c :: x, z'', by rw [hq, List.append_assoc]; rfl, (hfree x).trans hdepth, ?_⟩
      rcases hrest with ⟨hnil, rfl⟩ | ⟨hzero, text', rfl, hread'⟩
      · exact Or.inl ⟨hnil, rfl⟩
      · exact Or.inr ⟨hzero, text', rfl, hread'⟩
    split_ifs at h with ho hc hcomma
    · exact hstep (fun x => by rw [freeDepth, if_pos ho]) h
    · exact hstep (fun x => by rw [freeDepth, if_neg ho, if_pos hc]) h
    · rw [List.cons.injEq] at h
      obtain ⟨rfl, rfl⟩ := hcomma
      exact ⟨[], 0, by rw [List.append_nil, h.1], rfl, Or.inr ⟨rfl, text, rfl, h.2⟩⟩
    · exact hstep (fun x => by rw [freeDepth, if_neg ho, if_neg hc, if_neg hcomma]) h

/-- A text that is passed over before the end has no bracket that was not opened. -/
theorem outerDepth_of_closesAtEnd (hfree : freeDepth d x = some z) (hne : text ≠ [])
    (h : closesAtEnd (d + 1) (x ++ text) = true) :
    ∃ d' : ℕ, z = d' ∧ outerDepth d x = some d' ∧ closesAtEnd (d' + 1) text = true := by
  induction x generalizing d with
  | nil => exact ⟨d, (Option.some.inj hfree).symm, rfl, h⟩
  | cons c x ih =>
    rw [List.cons_append] at h
    rcases bracket_cases c with rfl | rfl | rfl | hc
    · exact ih hfree h
    · cases d with
      | zero =>
        rw [Nat.cast_zero, zero_add, closesAtEnd_close_one, List.isEmpty_iff] at h
        exact absurd (List.append_eq_nil_iff.1 h).2 hne
      | succ d =>
        rw [closesAtEnd_close (by omega), add_sub_cancel_right] at h
        rw [freeDepth, if_neg (by decide), if_pos rfl, Nat.cast_succ, add_sub_cancel_right] at hfree
        exact ih hfree h
    · cases d with
      | zero => cases hfree
      | succ d =>
        rw [freeDepth, if_neg (by decide), if_neg (by decide), if_neg (by omega)] at hfree
        exact ih hfree h
    · rw [closesAtEnd_plain ⟨hc.1, hc.2.1⟩] at h
      rw [freeDepth, if_neg hc.1, if_neg hc.2.1, if_neg fun h' => hc.2.2 h'.1] at hfree
      rw [outerDepth_plain hc]
      exact ih hfree h

/-- **Texts that can be read back** from between brackets are bracketed. -/
theorem bracketed_of_split {xs : List (List Char)}
    (hread : splitOuter 0 [] (List.intercalate [','] xs) = xs)
    (hclose : closesAtEnd 1 (List.intercalate [','] xs ++ [')']) = true) :
    ∀ x ∈ xs, Bracketed x := by
  induction xs with
  | nil => exact List.forall_mem_nil _
  | cons x xs ih =>
    obtain ⟨x', z, hx, hfree, hrest⟩ := splitOuter_eq_cons hread
    obtain rfl : x = x' := hx
    have hpass (text : List Char) (hne : text ≠ [])
        (h : closesAtEnd 1 (x ++ text) = true) :
        ∃ d' : ℕ, z = d' ∧ outerDepth 0 x = some d' ∧ closesAtEnd (d' + 1) text = true := by
      have hfree' : freeDepth ((0 : ℕ) : ℤ) x = some z := hfree
      have h' : closesAtEnd (((0 : ℕ) : ℤ) + 1) (x ++ text) = true := h
      exact outerDepth_of_closesAtEnd hfree' hne h'
    cases xs with
    | nil =>
      rw [List.intercalate_singleton] at hclose
      obtain ⟨d', -, hdepth, hlast⟩ := hpass [')'] (List.cons_ne_nil _ _) hclose
      obtain rfl : d' = 0 := by
        by_contra hne
        rw [closesAtEnd_close (by omega)] at hlast
        cases hlast
      intro y hy
      rw [List.mem_singleton.1 hy]
      exact hdepth
    | cons y ys =>
      rcases hrest with ⟨hnil, -⟩ | ⟨rfl, text', htext, hread'⟩
      · cases hnil
      · rw [List.intercalate_cons_cons, List.append_assoc] at htext hclose
        obtain rfl := (List.cons.inj (List.append_cancel_left htext)).2
        rw [List.append_assoc] at hclose
        obtain ⟨d', hd', hdepth, hlast⟩ := hpass _ (List.cons_ne_nil _ _) hclose
        obtain rfl : d' = 0 := by omega
        intro w hw
        rcases List.mem_cons.1 hw with rfl | hw
        · exact hdepth
        · exact ih hread' hlast w hw

end Characters

/-- Parts from which nothing is lost: what is read of a part is no longer than the part, and
together the readings are as long as the parts. -/
theorem map_filterMap_eq {α : Type*} {f : List Char → Option α} {g : α → List Char}
    {parts : List (List Char)} (hsub : ∀ x ∈ parts, ∀ a, f x = some a → (g a).Sublist x)
    (hlength : (parts.map fun x => x.length + 1).sum ≤
      ((parts.filterMap f).map fun a => (g a).length + 1).sum) :
    (parts.filterMap f).map g = parts := by
  have hle (xs : List (List Char)) (hxs : ∀ x ∈ xs, ∀ a, f x = some a → (g a).Sublist x) :
      ((xs.filterMap f).map fun a => (g a).length + 1).sum ≤
        (xs.map fun x => x.length + 1).sum := by
    induction xs with
    | nil => exact le_rfl
    | cons x xs ih =>
      have hrest := ih fun y hy => hxs y (List.mem_cons_of_mem _ hy)
      rw [List.map_cons, List.sum_cons]
      cases hx : f x with
      | none =>
        rw [List.filterMap_cons_none hx]
        omega
      | some a =>
        have hxa := (hxs x List.mem_cons_self a hx).length_le
        rw [List.filterMap_cons_some hx, List.map_cons, List.sum_cons]
        omega
  induction parts with
  | nil => rfl
  | cons x xs ih =>
    have hsub' : ∀ y ∈ xs, ∀ a, f y = some a → (g a).Sublist y :=
      fun y hy => hsub y (List.mem_cons_of_mem _ hy)
    have hrest := hle xs hsub'
    rw [List.map_cons, List.sum_cons] at hlength
    cases hx : f x with
    | none =>
      rw [List.filterMap_cons_none hx] at hlength
      omega
    | some a =>
      have hxa := hsub x List.mem_cons_self a hx
      have hxl := hxa.length_le
      rw [List.filterMap_cons_some hx, List.map_cons, List.sum_cons] at hlength
      rw [List.filterMap_cons_some hx, List.map_cons, hxa.eq_of_length (by omega),
        ih hsub' (by omega)]

end Lib
