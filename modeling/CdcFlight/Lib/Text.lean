import Mathlib

/-!
# Texts in code-point order

Texts are compared code point by code point, as lists. A number written with a fixed number of
decimal digits compares as the number, and so does a tuple of such numbers. What a text has of
spaces or quotes at its ends can be taken away.

## Main definitions

* `Lib.zeroPadded`: a natural number, padded with zeros on the left to a given width.
* `Lib.isSpace`, `Lib.stripBy`: spaces, and a text without some characters at its ends.

## Main results

* `Lib.append_lt_append_iff`: texts with parts of equal length compare part by part.
* `Lib.zeroPadded_lt_iff`: numbers that fit the width compare as their padded texts.
-/

namespace Lib

/-- Texts whose first parts have the same length compare by the first parts, then by the rest. -/
theorem append_lt_append_iff {a b c d : List Char} (h : a.length = b.length) :
    a ++ c < b ++ d ↔ a < b ∨ a = b ∧ c < d := by
  induction a generalizing b with
  | nil =>
    have hb : b = [] := List.eq_nil_of_length_eq_zero h.symm
    simp [hb]
  | cons x a ih =>
    obtain _ | ⟨y, b⟩ := b
    · simp at h
    · rw [List.cons_append, List.cons_append, List.cons_lt_cons_iff, List.cons_lt_cons_iff,
        ih (by simpa using h), List.cons.injEq]
      tauto

/-- The last `w` decimal digits of a number. -/
def lastDigits : ℕ → ℕ → List Char
  | 0, _ => []
  | w + 1, n => lastDigits w (n / 10) ++ [Nat.digitChar (n % 10)]

@[simp] theorem length_lastDigits (w n : ℕ) : (lastDigits w n).length = w := by
  induction w generalizing n with
  | zero => rfl
  | succ w ih => simp [lastDigits, ih]

theorem lastDigits_zero (w : ℕ) : lastDigits w 0 = List.replicate w '0' := by
  induction w with
  | zero => rfl
  | succ w ih => rw [lastDigits, ih, List.replicate_succ']; rfl

/-- The format `0wd`: the decimal digits of a number, padded with zeros to the width `w`. -/
def zeroPadded (w n : ℕ) : List Char :=
  List.replicate (w - (Nat.toDigits 10 n).length) '0' ++ Nat.toDigits 10 n

/-- A number that fits the width is written with exactly its last `w` digits. -/
theorem zeroPadded_eq_lastDigits {w n : ℕ} (hw : 0 < w) (hn : n < 10 ^ w) :
    zeroPadded w n = lastDigits w n := by
  induction w generalizing n with
  | zero => simp at hw
  | succ w ih =>
    rw [lastDigits]
    by_cases h : n < 10
    · have hdiv : n / 10 = 0 := by omega
      have hmod : n % 10 = n := by omega
      simp [zeroPadded, Nat.toDigits_of_lt_base h, hdiv, hmod, lastDigits_zero]
    · have hw' : 0 < w := by
        rcases Nat.eq_zero_or_pos w with rfl | hw'
        · simp at hn; omega
        · exact hw'
      have hdiv : n / 10 < 10 ^ w := by
        rw [pow_succ] at hn
        omega
      rw [← ih hw' hdiv, zeroPadded, zeroPadded, Nat.toDigits_of_base_le (by decide) (by omega)]
      simp

private theorem digitChar_lt_iff {a b : ℕ} (ha : a < 10) (hb : b < 10) :
    Nat.digitChar a < Nat.digitChar b ↔ a < b := by
  have h : ∀ a < 10, ∀ b < 10, (Nat.digitChar a < Nat.digitChar b ↔ a < b) := by decide
  exact h a ha b hb

theorem lastDigits_injOn {w n m : ℕ} (hn : n < 10 ^ w) (hm : m < 10 ^ w)
    (h : lastDigits w n = lastDigits w m) : n = m := by
  induction w generalizing n m with
  | zero => simp at hn hm; omega
  | succ w ih =>
    rw [pow_succ] at hn hm
    obtain ⟨hdiv, hmod⟩ := List.append_inj h (by simp)
    have hdiv' : n / 10 = m / 10 := ih (by omega) (by omega) hdiv
    have hmod' : n % 10 = m % 10 := by
      have hchar : Nat.digitChar (n % 10) = Nat.digitChar (m % 10) := by simpa using hmod
      have hlt : ¬ n % 10 < m % 10 := fun hlt =>
        ((digitChar_lt_iff (by omega) (by omega)).2 hlt).ne hchar
      have hgt : ¬ m % 10 < n % 10 := fun hlt =>
        ((digitChar_lt_iff (by omega) (by omega)).2 hlt).ne hchar.symm
      omega
    omega

private theorem lastDigits_lt_iff {w n m : ℕ} (hn : n < 10 ^ w) (hm : m < 10 ^ w) :
    lastDigits w n < lastDigits w m ↔ n < m := by
  induction w generalizing n m with
  | zero => simp at hn hm; simp [lastDigits, hn, hm]
  | succ w ih =>
    rw [pow_succ] at hn hm
    have hn' : n / 10 < 10 ^ w := by omega
    have hm' : m / 10 < 10 ^ w := by omega
    rw [lastDigits, lastDigits, append_lt_append_iff (by simp), ih hn' hm', List.cons_lt_cons_iff,
      digitChar_lt_iff (by omega) (by omega)]
    constructor
    · rintro (h | ⟨h, h' | h'⟩)
      · omega
      · have := lastDigits_injOn hn' hm' h
        omega
      · exact absurd h'.2 (lt_irrefl _)
    · intro h
      by_cases hdiv : n / 10 < m / 10
      · exact Or.inl hdiv
      · have heq : n / 10 = m / 10 := by omega
        exact Or.inr ⟨by rw [heq], Or.inl (by omega)⟩

/-- **Padded numbers compare as numbers.** -/
theorem zeroPadded_lt_iff {w n m : ℕ} (hw : 0 < w) (hn : n < 10 ^ w) (hm : m < 10 ^ w) :
    zeroPadded w n < zeroPadded w m ↔ n < m := by
  rw [zeroPadded_eq_lastDigits hw hn, zeroPadded_eq_lastDigits hw hm, lastDigits_lt_iff hn hm]

theorem zeroPadded_inj {w n m : ℕ} (hw : 0 < w) (hn : n < 10 ^ w) (hm : m < 10 ^ w)
    (h : zeroPadded w n = zeroPadded w m) : n = m := by
  rw [zeroPadded_eq_lastDigits hw hn, zeroPadded_eq_lastDigits hw hm] at h
  exact lastDigits_injOn hn hm h

theorem length_zeroPadded {w n : ℕ} (hw : 0 < w) (hn : n < 10 ^ w) :
    (zeroPadded w n).length = w := by
  rw [zeroPadded_eq_lastDigits hw hn, length_lastDigits]

/-! ### Characters at the ends -/

/-- `str.isspace`, of one character. -/
def isSpace (c : Char) : Bool :=
  let n := c.toNat
  (9 ≤ n && n ≤ 13) || (28 ≤ n && n ≤ 32) || n = 0x85 || n = 0xa0 || n = 0x1680 ||
    (0x2000 ≤ n && n ≤ 0x200a) || n = 0x2028 || n = 0x2029 || n = 0x202f || n = 0x205f ||
    n = 0x3000

/-- The characters taken away from both ends of a text, as `str.strip` does. -/
def stripBy (p : Char → Bool) (text : List Char) : List Char :=
  (text.dropWhile p).rdropWhile p

section Strip

variable {p : Char → Bool} {text : List Char}

theorem stripBy_sublist : (stripBy p text).Sublist text :=
  (List.rdropWhile_prefix p _).sublist.trans (List.dropWhile_suffix p).sublist

/-- A text that ends and starts otherwise is left as it is. -/
theorem stripBy_eq_self (hhead : ∀ c ∈ text.head?, p c = false)
    (hlast : ∀ c ∈ text.getLast?, p c = false) : stripBy p text = text := by
  have hdrop : text.dropWhile p = text := by
    cases text with
    | nil => rfl
    | cons c text =>
      exact List.dropWhile_cons_of_neg (by rw [hhead c rfl]; exact Bool.false_ne_true)
  rw [stripBy, hdrop, List.rdropWhile_eq_self_iff]
  intro hne h
  rw [hlast _ (List.getLast?_eq_some_getLast hne)] at h
  exact Bool.false_ne_true h

/-- Letters, digits and underscores are no spaces. -/
theorem isSpace_of_word {c : Char} (h : c.isAlphanum ∨ c = '_') : isSpace c = false := by
  rcases h with h | rfl
  · simp only [Char.isAlphanum, Char.isAlpha, Char.isUpper, Char.isLower, Char.isDigit,
      Bool.or_eq_true, Bool.and_eq_true, decide_eq_true_eq, ge_iff_le, UInt32.le_iff_toNat_le] at h
    have hn : (48 ≤ c.toNat ∧ c.toNat ≤ 57) ∨ (65 ≤ c.toNat ∧ c.toNat ≤ 90) ∨
        (97 ≤ c.toNat ∧ c.toNat ≤ 122) := by
      rcases h with (h | h) | h
      · exact Or.inr (Or.inl h)
      · exact Or.inr (Or.inr h)
      · exact Or.inl h
    simp only [isSpace, Bool.or_eq_false_iff, Bool.and_eq_false_iff, decide_eq_false_iff_not]
    omega
  · rfl

end Strip

end Lib
