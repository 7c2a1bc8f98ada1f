import CdcFlight.Lib.Joined
import CdcFlight.Lib.Text

/-!
# Decimal arithmetic

Decimal numbers as a sign, a coefficient and an exponent, as in the General Decimal Arithmetic
Specification: an exact value, operations whose results are rounded (half to even) to the digits of
a precision, and the text without exponent and without trailing zeros.

## Main definitions

* `Lib.DecimalNumber`, `Lib.DecimalNumber.value`.
* `Lib.DecimalNumber.round`, `Lib.DecimalNumber.scaleb`.
* `Lib.DecimalNumber.plainText`.

## Main results

* `Lib.DecimalNumber.round_value_congr`: what rounding makes of a number depends on its value.
* `Lib.DecimalNumber.round_value_eq_iff`: rounding keeps the numbers with few significant digits.
* `Lib.DecimalNumber.plainText_eq_iff`: the text is that of the value.
-/

namespace Lib

/-- A finite decimal number. -/
structure DecimalNumber where
  negative : Bool
  coefficient : ℕ
  exponent : ℤ
deriving DecidableEq, Repr

namespace DecimalNumber

/-- The sign as a factor. -/
def sign (d : DecimalNumber) : ℚ := if d.negative then -1 else 1

/-- The number. -/
def value (d : DecimalNumber) : ℚ := d.sign * d.coefficient * 10 ^ d.exponent

/-- The same number with `n` zeros appended to the coefficient. -/
def padded (n : ℕ) (d : DecimalNumber) : DecimalNumber :=
  { d with
    coefficient := d.coefficient * 10 ^ n
    exponent := d.exponent - n }

@[simp] theorem value_padded (n : ℕ) (d : DecimalNumber) : (d.padded n).value = d.value := by
  have hten : (10 : ℚ) ≠ 0 := by norm_num
  unfold value padded sign
  dsimp only
  rw [zpow_sub₀ hten, zpow_natCast]
  push_cast
  field_simp

theorem padded_succ (n : ℕ) (d : DecimalNumber) : d.padded (n + 1) = (d.padded n).padded 1 := by
  unfold padded
  simp only [mk.injEq, true_and]
  exact ⟨by ring, by push_cast; ring⟩

theorem value_eq_zero_iff {d : DecimalNumber} : d.value = 0 ↔ d.coefficient = 0 := by
  have hsign : d.sign ≠ 0 := by
    unfold sign
    split_ifs <;> norm_num
  have hpow : (10 : ℚ) ^ d.exponent ≠ 0 := zpow_ne_zero _ (by norm_num)
  unfold value
  simp [hsign, hpow]

private theorem sign_unique {a b : Bool} {x y : ℚ}
    (h : (if a then -1 else 1) * x = (if b then -1 else 1) * y) (hx : 0 < x) (hy : 0 ≤ y) :
    a = b ∧ x = y := by
  cases a <;> cases b <;> simp only [Bool.false_eq_true, if_false, if_true, one_mul, neg_mul] at h
  · exact ⟨rfl, h⟩
  · linarith
  · linarith
  · exact ⟨rfl, neg_inj.1 h⟩

/-- Numbers of one value differ in zeros that are appended. -/
theorem padded_of_value_eq {d d' : DecimalNumber} (h : d.value = d'.value)
    (hne : d.coefficient ≠ 0) (hle : d'.exponent ≤ d.exponent) : ∃ n, d' = d.padded n := by
  obtain ⟨n, hn⟩ := Int.eq_ofNat_of_zero_le (sub_nonneg.2 hle)
  have hten : (10 : ℚ) ≠ 0 := by norm_num
  have hpow : (0 : ℚ) < 10 ^ d'.exponent := by positivity
  have hexp : d.exponent = n + d'.exponent := by omega
  have hvalue : d.sign * ((d.coefficient * 10 ^ n : ℕ) : ℚ) = d'.sign * (d'.coefficient : ℚ) := by
    unfold value at h
    rw [hexp, zpow_add₀ hten, zpow_natCast, ← mul_assoc] at h
    have hcancel := mul_right_cancel₀ hpow.ne' h
    push_cast
    rw [← hcancel]
    ring
  have hpos : (0 : ℚ) < ((d.coefficient * 10 ^ n : ℕ) : ℚ) := by
    have : 0 < d.coefficient * 10 ^ n := by positivity
    exact_mod_cast this
  obtain ⟨hnegative, hcoefficient⟩ := sign_unique hvalue hpos (Nat.cast_nonneg _)
  refine ⟨n, ?_⟩
  have hsame : d'.coefficient = d.coefficient * 10 ^ n := (Nat.cast_injective hcoefficient).symm
  have hsub : d'.exponent = d.exponent - n := by omega
  unfold padded
  rw [← hsame, ← hsub, hnegative]

/-- What does not see appended zeros, nor the sign and the exponent of zero, sees the value only. -/
theorem congr_of_value {α : Type*} {f : DecimalNumber → α} {z : α}
    (hpad : ∀ d : DecimalNumber, d.coefficient ≠ 0 → f (d.padded 1) = f d)
    (hzero : ∀ d : DecimalNumber, d.coefficient = 0 → f d = z) {d d' : DecimalNumber}
    (h : d.value = d'.value) : f d = f d' := by
  have hpads (d : DecimalNumber) (hne : d.coefficient ≠ 0) (n : ℕ) : f (d.padded n) = f d := by
    induction n with
    | zero => simp [padded]
    | succ n ih =>
      rw [padded_succ, hpad _ (by simp [padded, hne]), ih]
  by_cases hne : d.coefficient = 0
  · rw [hzero d hne, hzero d' (value_eq_zero_iff.1 (h ▸ value_eq_zero_iff.2 hne))]
  · have hne' : d'.coefficient ≠ 0 := fun h' =>
      hne (value_eq_zero_iff.1 (h ▸ value_eq_zero_iff.2 h'))
    rcases le_total d'.exponent d.exponent with hle | hle
    · obtain ⟨n, rfl⟩ := padded_of_value_eq h hne hle
      exact (hpads d hne n).symm
    · obtain ⟨n, rfl⟩ := padded_of_value_eq h.symm hne' hle
      exact hpads d' hne' n

/-! ### Rounding -/

/-- The number of digits of a coefficient. -/
def digits (n : ℕ) : ℕ := (Nat.toDigits 10 n).length

/-- A coefficient without its last `k` digits, rounded half to even. -/
def dropDigits (k n : ℕ) : ℕ :=
  if 10 ^ k < 2 * (n % 10 ^ k) ∨ 10 ^ k = 2 * (n % 10 ^ k) ∧ n / 10 ^ k % 2 = 1 then n / 10 ^ k + 1
  else n / 10 ^ k

/-- A result, rounded to the precision; the carry may give one digit too many, a zero. -/
def round (precision : ℕ) (d : DecimalNumber) : DecimalNumber :=
  if digits d.coefficient ≤ precision then d
  else
    let k := digits d.coefficient - precision
    let kept := dropDigits k d.coefficient
    if digits kept ≤ precision then
      { d with
        coefficient := kept
        exponent := d.exponent + k }
    else
      { d with
        coefficient := kept / 10
        exponent := d.exponent + k + 1 }

/-- `Decimal.scaleb`. -/
def scaleb (precision : ℕ) (d : DecimalNumber) (n : ℤ) : DecimalNumber :=
  round precision { d with exponent := d.exponent + n }

/-- `int(d)`. -/
def toInt (d : DecimalNumber) : ℤ :=
  let magnitude := if 0 ≤ d.exponent then d.coefficient * 10 ^ d.exponent.toNat
    else d.coefficient / 10 ^ (-d.exponent).toNat
  if d.negative then -magnitude else magnitude

/-- `Decimal(n)` of an integer. -/
def ofInt (n : ℤ) : DecimalNumber := ⟨n < 0, n.natAbs, 0⟩

theorem digits_mul_ten {n : ℕ} (h : n ≠ 0) : digits (n * 10) = digits n + 1 := by
  unfold digits
  rw [Nat.toDigits_of_base_le (by norm_num) (by omega)]
  simp

theorem digits_le_iff {n k : ℕ} (hk : 0 < k) : digits n ≤ k ↔ n < 10 ^ k :=
  Nat.length_toDigits_le_iff (by norm_num) hk

theorem lt_pow_digits (n : ℕ) : n < 10 ^ digits n :=
  (digits_le_iff Nat.length_toDigits_pos).1 le_rfl

theorem dropDigits_mul_ten (k n : ℕ) : dropDigits (k + 1) (n * 10) = dropDigits k n := by
  have hdiv : n * 10 / 10 ^ (k + 1) = n / 10 ^ k := by
    rw [pow_succ]
    exact Nat.mul_div_mul_right _ _ (by norm_num)
  have hmod : n * 10 % 10 ^ (k + 1) = n % 10 ^ k * 10 := by
    rw [pow_succ]
    exact Nat.mul_mod_mul_right _ _ _
  unfold dropDigits
  rw [hdiv, hmod, pow_succ]
  congr 1
  refine propext (or_congr ?_ (and_congr_left' ?_))
  · omega
  · omega

theorem dropDigits_one_mul_ten (n : ℕ) : dropDigits 1 (n * 10) = n := by
  rw [dropDigits_mul_ten]
  unfold dropDigits
  rw [pow_zero, Nat.mod_one, Nat.div_one]
  simp

/-- Rounding does not look at the exponent. -/
theorem round_shift (precision : ℕ) (d : DecimalNumber) (n : ℤ) :
    (round precision { d with exponent := d.exponent + n }).value =
      (round precision d).value * 10 ^ n := by
  have hten : (10 : ℚ) ≠ 0 := by norm_num
  unfold round
  dsimp only
  split_ifs
  · simp only [value, sign, zpow_add₀ hten, mul_assoc]
  · simp only [value, sign, zpow_add₀ hten]
    ring
  · simp only [value, sign, zpow_add₀ hten]
    ring

/-- **What rounding makes of a number depends on its value.** -/
theorem round_value_congr {precision : ℕ} (hprecision : 0 < precision) {d d' : DecimalNumber}
    (h : d.value = d'.value) : (round precision d).value = (round precision d').value := by
  refine congr_of_value (f := fun d => (round precision d).value) (z := 0) ?_ ?_ h
  · intro d hne
    have hlength : digits (d.padded 1).coefficient = digits d.coefficient + 1 := by
      unfold padded
      rw [pow_one]
      exact digits_mul_ten hne
    by_cases hfits : digits d.coefficient ≤ precision
    · have hkeeps : round precision d = d := if_pos hfits
      rw [hkeeps]
      by_cases hfits' : digits d.coefficient + 1 ≤ precision
      · have hkeeps' : round precision (d.padded 1) = d.padded 1 := if_pos (hlength ▸ hfits')
        rw [hkeeps', value_padded]
      · have hk : digits (d.padded 1).coefficient - precision = 1 := by omega
        have hkept : dropDigits 1 (d.padded 1).coefficient = d.coefficient := by
          unfold padded
          rw [pow_one]
          exact dropDigits_one_mul_ten _
        unfold round
        rw [if_neg (by omega)]
        dsimp only
        rw [hk, hkept, if_pos hfits]
        simp [value, sign, padded]
    · have hk : digits (d.padded 1).coefficient - precision =
          digits d.coefficient - precision + 1 := by omega
      have hkept : dropDigits (digits d.coefficient - precision + 1) (d.padded 1).coefficient =
          dropDigits (digits d.coefficient - precision) d.coefficient := by
        unfold padded
        rw [pow_one]
        exact dropDigits_mul_ten _ _
      unfold round
      rw [if_neg (by omega), if_neg hfits]
      dsimp only
      rw [hk, hkept]
      have hexponent : (d.padded 1).exponent + ((digits d.coefficient - precision + 1 : ℕ) : ℤ) =
          d.exponent + ((digits d.coefficient - precision : ℕ) : ℤ) := by
        unfold padded
        push_cast
        ring
      rw [hexponent]
      rfl
  · intro d hzero
    have hkeeps : round precision d = d := by
      refine if_pos ?_
      rw [hzero]
      exact hprecision
    show (round precision d).value = 0
    rw [hkeeps]
    exact value_eq_zero_iff.2 hzero

/-- The number has at most so many digits, without the zeros at its end. -/
def Significant (precision : ℕ) (d : DecimalNumber) : Prop :=
  ∃ c < 10 ^ precision, ∃ n, d.coefficient = c * 10 ^ n

theorem dropDigits_le (k n : ℕ) : dropDigits k n ≤ n / 10 ^ k + 1 := by
  unfold dropDigits
  split_ifs
  · exact le_rfl
  · exact Nat.le_succ _

/-- A result fits the precision. -/
theorem coefficient_round_lt {precision : ℕ} (hprecision : 0 < precision) (d : DecimalNumber) :
    (round precision d).coefficient < 10 ^ precision := by
  unfold round
  split_ifs with hfits
  · exact (digits_le_iff hprecision).1 hfits
  · dsimp only
    split_ifs with hkept
    · exact (digits_le_iff hprecision).1 hkept
    · have hle := dropDigits_le (digits d.coefficient - precision) d.coefficient
      have hlt : d.coefficient / 10 ^ (digits d.coefficient - precision) < 10 ^ precision := by
        rw [Nat.div_lt_iff_lt_mul (by positivity), ← pow_add]
        have hsum : precision + (digits d.coefficient - precision) = digits d.coefficient := by
          omega
        rw [hsum]
        exact lt_pow_digits _
      have hpow : 0 < 10 ^ precision := by positivity
      dsimp only
      omega

theorem le_exponent_round (precision : ℕ) (d : DecimalNumber) :
    d.exponent ≤ (round precision d).exponent := by
  unfold round
  split_ifs
  · exact le_rfl
  · dsimp only
    split_ifs
    · dsimp only
      omega
    · dsimp only
      omega

/-- **Rounding keeps the numbers with few significant digits.** -/
theorem round_value_eq_iff {precision : ℕ} (hprecision : 0 < precision) {d : DecimalNumber} :
    (round precision d).value = d.value ↔ d.Significant precision := by
  constructor
  · intro h
    by_cases hzero : d.coefficient = 0
    · exact ⟨0, by positivity, 0, by rw [hzero, Nat.zero_mul]⟩
    · have hne : (round precision d).coefficient ≠ 0 := by
        intro h'
        exact hzero (value_eq_zero_iff.1 (h ▸ value_eq_zero_iff.2 h'))
      obtain ⟨n, hn⟩ := padded_of_value_eq h hne (le_exponent_round precision d)
      exact ⟨_, coefficient_round_lt hprecision d, n, congrArg coefficient hn⟩
  · rintro ⟨c, hc, n, hn⟩
    have hpadded : (⟨d.negative, c, d.exponent + n⟩ : DecimalNumber).padded n = d := by
      unfold padded
      dsimp only
      rw [← hn, add_sub_cancel_right]
    have hvalue : (⟨d.negative, c, d.exponent + n⟩ : DecimalNumber).value = d.value := by
      rw [← value_padded n, hpadded]
    have hkeeps : round precision ⟨d.negative, c, d.exponent + n⟩ =
        ⟨d.negative, c, d.exponent + n⟩ := if_pos ((digits_le_iff hprecision).2 hc)
    rw [← round_value_congr hprecision hvalue, hkeeps, hvalue]

/-! ### Integers -/

theorem value_ofInt (n : ℤ) : (ofInt n).value = n := by
  unfold ofInt value sign
  dsimp only
  rw [zpow_zero, mul_one]
  by_cases hn : n < 0
  · rw [if_pos (decide_eq_true hn), neg_one_mul, Nat.cast_natAbs, abs_of_neg hn]
    push_cast
    ring
  · rw [if_neg (by simpa using hn), one_mul, Nat.cast_natAbs, abs_of_nonneg (not_lt.1 hn)]

/-- A number without a fraction is its integer. -/
theorem toInt_eq {d : DecimalNumber} (h : 0 ≤ d.exponent) : (d.toInt : ℚ) = d.value := by
  obtain ⟨n, hn⟩ := Int.eq_ofNat_of_zero_le h
  unfold toInt value sign
  dsimp only
  rw [if_pos h, hn, Int.toNat_natCast, zpow_natCast]
  split_ifs
  · push_cast
    ring
  · push_cast
    ring

/-! ### Text -/

/-- The text of a positive number at a fixed number of decimals, as `format(d, "f")` has it. -/
def fixedText (decimals n : ℕ) : List Char :=
  Nat.toDigits 10 (n / 10 ^ decimals) ++ '.' :: lastDigits decimals (n % 10 ^ decimals)

/-- `text.rstrip("0").rstrip(".")`. -/
def stripped (text : List Char) : List Char := (text.rdropWhile (· = '0')).rdropWhile (· = '.')

/-- The text of a finite number, without zeros at the end of its fraction. -/
def plainText (d : DecimalNumber) : List Char :=
  if d.coefficient = 0 then ['0']
  else
    (if d.negative then ['-'] else []) ++
      if 0 ≤ d.exponent then Nat.toDigits 10 d.coefficient ++ List.replicate d.exponent.toNat '0'
      else stripped (fixedText (-d.exponent).toNat d.coefficient)

theorem fixedText_mul_ten (decimals n : ℕ) :
    fixedText (decimals + 1) (n * 10) = fixedText decimals n ++ ['0'] := by
  unfold fixedText
  rw [pow_succ, Nat.mul_div_mul_right _ _ (by norm_num), Nat.mul_mod_mul_right, lastDigits,
    Nat.mul_div_cancel _ (by norm_num), Nat.mul_mod_left]
  simp [Nat.digitChar]

theorem stripped_append_zero (text : List Char) : stripped (text ++ ['0']) = stripped text := by
  unfold stripped
  rw [List.rdropWhile_concat_pos _ _ _ (by simp)]

theorem stripped_append_point {text : List Char} (h : '.' ∉ text) :
    stripped (text ++ ['.']) = text := by
  unfold stripped
  rw [List.rdropWhile_concat_neg _ _ _ (by simp), List.rdropWhile_concat_pos _ _ _ (by simp),
    List.rdropWhile_eq_self_iff]
  intro hne hlast
  refine h ?_
  rw [← of_decide_eq_true hlast]
  exact List.getLast_mem hne

theorem notMem_toDigits {c : Char} (h : c.isDigit = false) (n : ℕ) : c ∉ Nat.toDigits 10 n := by
  intro hc
  rw [isDigit_of_mem_toDigits hc] at h
  cases h

theorem isDigit_of_mem_lastDigits {c : Char} {w n : ℕ} (h : c ∈ lastDigits w n) :
    c.isDigit = true := by
  induction w generalizing n with
  | zero => cases h
  | succ w ih =>
    rw [lastDigits, List.mem_append, List.mem_singleton] at h
    rcases h with h | rfl
    · exact ih h
    · have hall : ∀ a < 10, (Nat.digitChar a).isDigit = true := by decide
      exact hall _ (Nat.mod_lt _ (by norm_num))

theorem fixedText_zero_decimals (n : ℕ) : fixedText 0 n = Nat.toDigits 10 n ++ ['.'] := by
  unfold fixedText
  rw [pow_zero, Nat.div_one]
  rfl

/-- Appended zeros are not in the text. -/
theorem plainText_padded {d : DecimalNumber} (hne : d.coefficient ≠ 0) :
    (d.padded 1).plainText = d.plainText := by
  have hne' : d.coefficient * 10 ^ 1 ≠ 0 := by positivity
  have hdigits : Nat.toDigits 10 (d.coefficient * 10 ^ 1) =
      Nat.toDigits 10 d.coefficient ++ ['0'] := by
    rw [pow_one, Nat.toDigits_of_base_le (by norm_num) (by omega)]
    simp [Nat.digitChar]
  unfold plainText padded
  dsimp only
  rw [if_neg hne, if_neg hne']
  congr 1
  rcases lt_trichotomy d.exponent 0 with hneg | hzero | hpos
  · have hk : (-(d.exponent - (1 : ℕ))).toNat = (-d.exponent).toNat + 1 := by omega
    rw [if_neg (by omega), if_neg (by omega), hk, pow_one, fixedText_mul_ten, stripped_append_zero]
  · rw [if_neg (by omega), if_pos (by omega), hzero]
    show stripped (fixedText (0 + 1) (d.coefficient * 10)) = Nat.toDigits 10 d.coefficient ++ []
    rw [fixedText_mul_ten, stripped_append_zero, fixedText_zero_decimals,
      stripped_append_point (notMem_toDigits (by decide) _), List.append_nil]
  · have hk : d.exponent.toNat = (d.exponent - (1 : ℕ)).toNat + 1 := by omega
    rw [if_pos (by omega), if_pos hpos.le, hdigits, hk, List.replicate_succ, List.append_assoc]
    rfl

theorem plainText_congr {d d' : DecimalNumber} (h : d.value = d'.value) :
    d.plainText = d'.plainText :=
  congr_of_value (fun _ hne => plainText_padded hne) (fun _ hzero => if_pos hzero) h

/-- A fraction without the zeros at its end can be filled up again. -/
theorem rdropWhile_zero_inj {x y : List Char} (hlength : x.length = y.length)
    (h : x.rdropWhile (· = '0') = y.rdropWhile (· = '0')) : x = y := by
  have htail (l : List Char) : l.rtakeWhile (· = '0') =
      List.replicate (l.rtakeWhile (· = '0')).length '0' :=
    List.eq_replicate_of_mem fun c hc =>
      of_decide_eq_true (List.mem_rtakeWhile_imp (p := fun c => decide (c = '0')) hc)
  have hx : x.rdropWhile (· = '0') ++ x.rtakeWhile (· = '0') = x :=
    List.rdropWhile_append_rtakeWhile
  have hy : y.rdropWhile (· = '0') ++ y.rtakeWhile (· = '0') = y :=
    List.rdropWhile_append_rtakeWhile
  have hsame : (x.rtakeWhile (· = '0')).length = (y.rtakeWhile (· = '0')).length := by
    have hx' := congrArg List.length hx
    have hy' := congrArg List.length hy
    rw [List.length_append] at hx' hy'
    rw [h] at hx'
    omega
  rw [← hx, ← hy, h, htail x, htail y, hsame]

/-- What is left of a text with a fraction. -/
theorem stripped_fraction {whole fraction : List Char} (hwhole : '.' ∉ whole)
    (hfraction : '.' ∉ fraction) : stripped (whole ++ '.' :: fraction) =
      if fraction.rdropWhile (· = '0') = [] then whole
      else whole ++ '.' :: fraction.rdropWhile (· = '0') := by
  induction fraction using List.reverseRecOn with
  | nil => exact stripped_append_point hwhole
  | append_singleton fraction c ih =>
    rw [List.mem_append, List.mem_singleton, not_or] at hfraction
    rw [← List.cons_append, ← List.append_assoc]
    by_cases hc : c = '0'
    · rw [hc, stripped_append_zero, List.rdropWhile_concat_pos _ _ _ (by simp)]
      exact ih hfraction.1
    · rw [List.rdropWhile_concat_neg _ _ _ (by simpa using hc), if_neg (by simp)]
      unfold stripped
      rw [List.rdropWhile_concat_neg _ _ _ (by simpa using hc),
        List.rdropWhile_concat_neg _ _ _ (by simpa using Ne.symm hfraction.2), List.append_assoc]
      rfl

theorem stripped_fixedText_inj {decimals n m : ℕ}
    (h : stripped (fixedText decimals n) = stripped (fixedText decimals m)) : n = m := by
  have hwhole (n : ℕ) : '.' ∉ Nat.toDigits 10 n := notMem_toDigits (by decide) n
  have hfraction (n : ℕ) : '.' ∉ lastDigits decimals n := by
    intro hmem
    have := isDigit_of_mem_lastDigits hmem
    revert this
    decide
  have hparts : Nat.toDigits 10 (n / 10 ^ decimals) = Nat.toDigits 10 (m / 10 ^ decimals) ∧
      (lastDigits decimals (n % 10 ^ decimals)).rdropWhile (· = '0') =
        (lastDigits decimals (m % 10 ^ decimals)).rdropWhile (· = '0') := by
    unfold fixedText at h
    rw [stripped_fraction (hwhole _) (hfraction _), stripped_fraction (hwhole _) (hfraction _)] at h
    split_ifs at h with hn hm hm
    · exact ⟨h, hn.trans hm.symm⟩
    · refine absurd (h ▸ hwhole _) ?_
      simp
    · refine absurd (h.symm ▸ hwhole _) ?_
      simp
    · exact append_first_inj (hwhole _) (hwhole _) h
  have hdiv := toDigits_inj hparts.1
  have hpow : 0 < 10 ^ decimals := by positivity
  have hlast := rdropWhile_zero_inj (by simp) hparts.2
  have hmod := lastDigits_injOn (Nat.mod_lt _ hpow) (Nat.mod_lt _ hpow) hlast
  rw [← Nat.div_add_mod n (10 ^ decimals), ← Nat.div_add_mod m (10 ^ decimals), hdiv, hmod]

theorem notMem_stripped {c : Char} {text : List Char} (h : c ∉ text) : c ∉ stripped text := by
  intro hc
  unfold stripped at hc
  exact h ((List.rdropWhile_prefix _ _).subset ((List.rdropWhile_prefix _ _).subset hc))

theorem minus_notMem_fixedText (decimals n : ℕ) : '-' ∉ fixedText decimals n := by
  unfold fixedText
  rw [List.mem_append, List.mem_cons]
  rintro (h | h | h)
  · exact notMem_toDigits (by decide) _ h
  · revert h
    decide
  · have := isDigit_of_mem_lastDigits h
    revert this
    decide

theorem stripped_fixedText_zero (decimals : ℕ) : stripped (fixedText decimals 0) = ['0'] := by
  induction decimals with
  | zero =>
    rw [fixedText_zero_decimals]
    exact stripped_append_point (notMem_toDigits (by decide) 0)
  | succ decimals ih =>
    have hstep := fixedText_mul_ten decimals 0
    rw [Nat.zero_mul] at hstep
    rw [hstep, stripped_append_zero, ih]

/-- The text of a number with at least one decimal. -/
theorem plainText_eq {d : DecimalNumber} (h : d.exponent < 0) : d.plainText =
    (if d.coefficient ≠ 0 ∧ d.negative then ['-'] else []) ++
      stripped (fixedText (-d.exponent).toNat d.coefficient) := by
  unfold plainText
  by_cases hzero : d.coefficient = 0
  · rw [if_pos hzero, if_neg (by simp [hzero]), hzero, stripped_fixedText_zero]
    rfl
  · rw [if_neg hzero, if_neg (not_le.2 h)]
    simp [hzero]

theorem stripped_fixedText_ne_nil (decimals n : ℕ) : stripped (fixedText decimals n) ≠ [] := by
  have hfraction : '.' ∉ lastDigits decimals (n % 10 ^ decimals) := by
    intro hmem
    have := isDigit_of_mem_lastDigits hmem
    revert this
    decide
  unfold fixedText
  rw [stripped_fraction (notMem_toDigits (by decide) _) hfraction]
  split_ifs
  · exact Nat.toDigits_ne_nil
  · simp

/-- The text is never empty, nor that of a negative zero. -/
theorem plainText_ne (d : DecimalNumber) : d.plainText ≠ [] ∧ d.plainText ≠ ['-', '0'] := by
  have hpadded : (d.padded (d.exponent.toNat + 1)).plainText = d.plainText :=
    plainText_congr (value_padded _ d)
  have hexp : (d.padded (d.exponent.toNat + 1)).exponent < 0 := by
    unfold padded
    dsimp only
    omega
  rw [← hpadded, plainText_eq hexp]
  have hne := stripped_fixedText_ne_nil (-(d.padded (d.exponent.toNat + 1)).exponent).toNat
    (d.padded (d.exponent.toNat + 1)).coefficient
  refine ⟨List.append_ne_nil_of_right_ne_nil _ hne, fun htext => ?_⟩
  split_ifs at htext with hsign
  · have hzero := List.append_cancel_left (htext : ['-'] ++ _ = ['-'] ++ ['0'])
    rw [← stripped_fixedText_zero (-(d.padded (d.exponent.toNat + 1)).exponent).toNat] at hzero
    exact hsign.1 (stripped_fixedText_inj hzero)
  · have hno := notMem_stripped
      (minus_notMem_fixedText (-(d.padded (d.exponent.toNat + 1)).exponent).toNat
        (d.padded (d.exponent.toNat + 1)).coefficient)
    rw [List.nil_append] at htext
    rw [htext] at hno
    exact hno List.mem_cons_self

theorem value_eq_of_plainText {d d' : DecimalNumber} (hexp : d.exponent = d'.exponent)
    (hneg : d.exponent < 0) (h : d.plainText = d'.plainText) : d.value = d'.value := by
  rw [plainText_eq hneg, plainText_eq (hexp ▸ hneg), ← hexp] at h
  have hno (n : ℕ) : '-' ∉ stripped (fixedText (-d.exponent).toNat n) :=
    notMem_stripped (minus_notMem_fixedText _ n)
  split_ifs at h with hd hd' hd'
  · have hsame := stripped_fixedText_inj (List.append_cancel_left h)
    unfold value sign
    rw [hd.2, hd'.2, hsame, hexp]
  · rw [List.nil_append] at h
    refine absurd ?_ (hno d'.coefficient)
    rw [← h]
    exact List.mem_append_left _ List.mem_cons_self
  · rw [List.nil_append] at h
    refine absurd ?_ (hno d.coefficient)
    rw [h]
    exact List.mem_append_left _ List.mem_cons_self
  · have hsame := stripped_fixedText_inj h
    by_cases hzero : d.coefficient = 0
    · rw [value_eq_zero_iff.2 hzero, value_eq_zero_iff.2 (hsame ▸ hzero)]
    · have hzero' : d'.coefficient ≠ 0 := hsame ▸ hzero
      unfold value sign
      rw [hsame, hexp]
      simp only [hzero, hzero', ne_eq, not_false_eq_true, true_and] at hd hd'
      rw [if_neg hd, if_neg hd']

/-- **The text is that of the value.** -/
theorem plainText_eq_iff {d d' : DecimalNumber} :
    d.plainText = d'.plainText ↔ d.value = d'.value := by
  refine ⟨fun h => ?_, plainText_congr⟩
  -- both numbers are brought to as many decimals, at least one
  let decimals : ℕ := max (-d.exponent).toNat (-d'.exponent).toNat + 1
  have hpad (e : DecimalNumber) (he : (-e.exponent).toNat < decimals) :
      (e.padded (e.exponent + decimals).toNat).exponent = -(decimals : ℤ) := by
    unfold padded
    dsimp only
    omega
  have hd := hpad d (by omega)
  have hd' := hpad d' (by omega)
  rw [← value_padded (d.exponent + decimals).toNat d,
    ← value_padded (d'.exponent + decimals).toNat d']
  refine value_eq_of_plainText (hd.trans hd'.symm) (by rw [hd]; omega) ?_
  rw [plainText_congr (value_padded _ d), plainText_congr (value_padded _ d'), h]

end DecimalNumber

end Lib
