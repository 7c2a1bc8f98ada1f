import Mathlib.Data.List.Basic
import Mathlib.Data.List.Intervals
import Mathlib.Tactic.SplitIfs

/-!
# Scanners and escapes

A scanner goes over a text with a state, and splits it at the characters its state lets it split
at. A text that takes a state back to itself without a split is one part of the texts around it.
The second half is about escapes: replacing characters by pairs, and pairs by characters.

## Main definitions

* `Lib.Scanner`: a scanner, with `Scanner.firstSplit` and `Scanner.split`.
* `Lib.Scanner.pass`: the state after a text without a split.
* `Lib.replaceChar`, `Lib.replacePair`: replacements from the left.

## Main results

* `Lib.Scanner.split_intercalate`: texts that pass are the parts of their join.
* `Lib.replacePair_escaped`: two replacements undo an escape.
-/

namespace Lib

/-! ### Scanners -/

/-- A scanner: how a character changes the state, and where the text is split. -/
structure Scanner (σ α : Type*) where
  step : σ → α → σ
  splits : σ → α → Bool

namespace Scanner

variable {σ α : Type*} (sc : Scanner σ α)

/-- The state after a text in which nothing splits. -/
def pass : σ → List α → Option σ
  | s, [] => some s
  | s, c :: text => if sc.splits s c then none else pass (sc.step s c) text

/-- The place of the first character that splits. -/
def firstSplit : σ → List α → Option ℕ
  | _, [] => none
  | s, c :: text => if sc.splits s c then some 0 else (firstSplit (sc.step s c) text).map (· + 1)

/-- The parts of a text, the first one continued. -/
def split : σ → List α → List α → List (List α)
  | _, part, [] => [part]
  | s, part, c :: text =>
    if sc.splits s c then part :: split (sc.step s c) [] text
    else split (sc.step s c) (part ++ [c]) text

variable {sc} {s s' : σ} {c : α} {x y part text : List α}

@[simp] theorem pass_nil : sc.pass s [] = some s := rfl

theorem pass_cons (h : sc.splits s c = false) :
    sc.pass s (c :: text) = sc.pass (sc.step s c) text := by
  rw [pass, if_neg (by simp [h])]

theorem pass_append : sc.pass s (x ++ y) = (sc.pass s x).bind (sc.pass · y) := by
  induction x generalizing s with
  | nil => rfl
  | cons c x ih =>
    rw [List.cons_append, pass, pass]
    split_ifs
    · rfl
    · exact ih

/-- A text of pieces that each leave the state alone leaves it alone. -/
theorem pass_flatMap {β : Type*} {f : β → List α} {l : List β}
    (h : ∀ b ∈ l, sc.pass s (f b) = some s) : sc.pass s (l.flatMap f) = some s := by
  induction l with
  | nil => rfl
  | cons b l ih =>
    rw [List.flatMap_cons, pass_append, h b List.mem_cons_self]
    exact ih fun b' hb' => h b' (List.mem_cons_of_mem _ hb')

theorem pass_of_forall (h : ∀ c ∈ text, sc.splits s c = false ∧ sc.step s c = s) :
    sc.pass s text = some s := by
  induction text with
  | nil => rfl
  | cons c text ih =>
    obtain ⟨hsplits, hstep⟩ := h c List.mem_cons_self
    rw [pass_cons hsplits, hstep]
    exact ih fun c' hc' => h c' (List.mem_cons_of_mem _ hc')

/-- The first split comes after a text that passes. -/
theorem firstSplit_of_pass (h : sc.pass s x = some s') (hc : sc.splits s' c = true) :
    sc.firstSplit s (x ++ c :: text) = some x.length := by
  induction x generalizing s with
  | nil =>
    obtain rfl : s = s' := Option.some.inj h
    rw [List.nil_append, firstSplit, if_pos hc, List.length_nil]
  | cons d x ih =>
    rw [pass] at h
    split_ifs at h with hd
    rw [List.cons_append, firstSplit, if_neg hd, ih h, Option.map_some, List.length_cons]

theorem split_of_pass (h : sc.pass s x = some s') :
    sc.split s part (x ++ text) = sc.split s' (part ++ x) text := by
  induction x generalizing s part with
  | nil =>
    obtain rfl : s = s' := Option.some.inj h
    rw [List.nil_append, List.append_nil]
  | cons d x ih =>
    rw [pass] at h
    split_ifs at h with hd
    rw [List.cons_append, split, if_neg hd, ih h, List.append_assoc, List.singleton_append]

/-- **Texts that leave a state alone are the parts of their join**, when the character between
them splits there and leaves the state alone as well. -/
theorem split_intercalate {xs : List (List α)} (hxs : ∀ x ∈ xs, sc.pass s x = some s)
    (hsplits : sc.splits s c = true) (hstep : sc.step s c = s) (hne : xs ≠ []) :
    sc.split s [] ([c].intercalate xs) = xs := by
  induction xs with
  | nil => exact absurd rfl hne
  | cons x xs ih =>
    have hx := hxs x List.mem_cons_self
    obtain _ | ⟨y, xs⟩ := xs
    · have hsplit : sc.split s [] (x ++ []) = sc.split s ([] ++ x) [] := split_of_pass hx
      rw [List.append_nil] at hsplit
      rw [List.intercalate_singleton, hsplit]
      rfl
    · rw [List.intercalate_cons_cons, List.append_assoc, split_of_pass hx, List.nil_append,
        List.singleton_append, split, if_pos hsplits, hstep,
        ih (fun x' hx' => hxs x' (List.mem_cons_of_mem _ hx')) (List.cons_ne_nil _ _)]

end Scanner

/-! ### Replacements -/

section Replace

variable {α : Type*} [DecidableEq α]

/-- `text.replace(c, by)` for one character. -/
def replaceChar (c : α) (by' : List α) (text : List α) : List α :=
  text.flatMap fun d => if d = c then by' else [d]

/-- `text.replace(a + b, c)` for two characters and one. -/
def replacePair (a b c : α) : List α → List α
  | [] => []
  | [x] => [x]
  | x :: y :: text =>
    if x = a ∧ y = b then c :: replacePair a b c text else x :: replacePair a b c (y :: text)

variable {a b c x e q : α} {text : List α}

@[simp] theorem replacePair_nil : replacePair a b c [] = [] := rfl

theorem replacePair_pair : replacePair a b c (a :: b :: text) = c :: replacePair a b c text := by
  rw [replacePair, if_pos ⟨rfl, rfl⟩]

theorem replacePair_cons_of_ne (h : x ≠ a) :
    replacePair a b c (x :: text) = x :: replacePair a b c text := by
  cases text with
  | nil => rfl
  | cons y text => rw [replacePair, if_neg fun hxy => h hxy.1]

theorem replacePair_cons_of_head (h : text.head? ≠ some b) :
    replacePair a b c (x :: text) = x :: replacePair a b c text := by
  cases text with
  | nil => rfl
  | cons y text => rw [replacePair, if_neg fun hxy => h (congrArg some hxy.2)]

/-- A text without the second character of the pair stays. -/
theorem replacePair_of_notMem (h : b ∉ text) : replacePair a b c text = text := by
  induction text with
  | nil => rfl
  | cons x text ih =>
    rw [List.mem_cons, not_or] at h
    rw [replacePair_cons_of_head, ih h.2]
    exact fun hhead => h.2 (List.mem_of_mem_head? hhead)

/-- Replacing a pair by its second character keeps the number of these. -/
theorem count_replacePair (h : a ≠ b) : (replacePair a b b text).count b = text.count b := by
  fun_induction replacePair a b b text with
  | case1 => rfl
  | case2 x => rfl
  | case3 x y text hxy ih =>
    obtain ⟨rfl, rfl⟩ := hxy
    rw [List.count_cons_self, List.count_cons_of_ne h, List.count_cons_self, ih]
  | case4 x y text hxy ih => rw [List.count_cons, List.count_cons, ih]

/-- An escape: the escape character is doubled, and the quote becomes the given text. -/
def escaped (e q : α) (quote : List α) (text : List α) : List α :=
  text.flatMap fun c => if c = e then [e, e] else if c = q then quote else [c]

@[simp] theorem escaped_nil {quote : List α} : escaped e q quote [] = [] := rfl

theorem escaped_cons {quote : List α} : escaped e q quote (c :: text) =
    (if c = e then [e, e] else if c = q then quote else [c]) ++ escaped e q quote text := rfl

theorem replaceChar_cons {quote : List α} : replaceChar q quote (c :: text) =
    (if c = q then quote else [c]) ++ replaceChar q quote text := rfl

/-- Doubling the escape character first and escaping the quote afterwards. -/
theorem replaceChar_replaceChar (h : e ≠ q) {quote : List α} :
    replaceChar q quote (replaceChar e [e, e] text) = escaped e q quote text := by
  induction text with
  | nil => rfl
  | cons c text ih =>
    rw [escaped_cons, ← ih]
    unfold replaceChar
    rw [List.flatMap_cons, List.flatMap_append]
    congr 1
    split_ifs with he hq <;> simp [*]

/-- The pairs of the escape character are undone; what stands for the quote stays, unless it starts
with such a pair. -/
theorem replacePair_escaped_self (h : e ≠ q) {quote : List α}
    (hquote : quote = [e, q] ∨ quote = [q, q]) :
    replacePair e e e (escaped e q quote text) = replaceChar q quote text := by
  induction text with
  | nil => rfl
  | cons c text ih =>
    rw [escaped_cons, replaceChar_cons, ← ih]
    by_cases he : c = e
    · subst he
      rw [if_pos rfl, if_neg h]
      exact replacePair_pair
    · rw [if_neg he]
      by_cases hq : c = q
      · rw [if_pos hq]
        rcases hquote with rfl | rfl
        · rw [List.cons_append, List.cons_append, List.nil_append, replacePair,
            if_neg fun hpair => h hpair.2.symm, replacePair_cons_of_ne h.symm]
          rfl
        · rw [List.cons_append, List.cons_append, List.nil_append,
            replacePair_cons_of_ne h.symm, replacePair_cons_of_ne h.symm]
          rfl
      · rw [if_neg hq]
        exact replacePair_cons_of_ne he

/-- **Two replacements undo an escape** that writes the escape character before a quote. -/
theorem replacePair_escaped (h : e ≠ q) :
    replacePair e q q (replacePair e e e (escaped e q [e, q] text)) = text := by
  rw [replacePair_escaped_self h (Or.inl rfl)]
  have hhead (text : List α) : (replaceChar q [e, q] text).head? ≠ some q := by
    cases text with
    | nil => exact nofun
    | cons c text =>
      by_cases hc : c = q <;> simp [replaceChar, hc, h]
  induction text with
  | nil => rfl
  | cons c text ih =>
    rw [replaceChar_cons]
    split_ifs with hc
    · subst hc
      rw [List.cons_append, List.cons_append, List.nil_append, replacePair_pair, ih]
    · rw [List.singleton_append, replacePair_cons_of_head (hhead text), ih]

/-- They do not undo an escape that doubles the quote, when there is one. -/
theorem replacePair_doubled_iff (h : e ≠ q) :
    replacePair e q q (replacePair e e e (escaped e q [q, q] text)) = text ↔ q ∉ text := by
  rw [replacePair_escaped_self h (Or.inr rfl)]
  have hcount : (replaceChar q [q, q] text).count q = 2 * text.count q := by
    induction text with
    | nil => rfl
    | cons c text ih =>
      rw [replaceChar_cons, List.count_append, ih]
      by_cases hc : c = q
      · subst hc
        rw [if_pos rfl, List.count_cons_self, List.count_cons_self, List.count_cons_self,
          List.count_nil]
        omega
      · rw [if_neg hc, List.count_cons_of_ne hc, List.count_cons_of_ne hc, List.count_nil,
          Nat.zero_add]
  constructor
  · intro heq hmem
    have hpos := List.count_pos_iff.2 hmem
    have hkept : (replacePair e q q (replaceChar q [q, q] text)).count q =
      (replaceChar q [q, q] text).count q := count_replacePair h
    rw [heq, hcount] at hkept
    omega
  · intro hmem
    have hsame : replaceChar q [q, q] text = text := by
      rw [replaceChar, List.flatMap_congr (g := fun c => [c]), List.flatMap_singleton']
      intro c hc
      rw [if_neg]
      rintro rfl
      exact hmem hc
    rw [hsame, replacePair_of_notMem hmem]

end Replace

end Lib
