import CdcFlight.Lib.NumberLiteral

/-!
# Double-precision numbers

The finite numbers of the format binary64, rounding to them (to nearest, ties to even), and the
shortest decimal literal that rounds back to a number, in the layout that `float.__repr__` has.

## Main definitions

* `Lib.Binary64`, `Lib.Binary64.magnitude`.
* `Lib.Binary64.ofMagnitude`, `Lib.Binary64.ofLiteral`: rounding.
* `Lib.Binary64.shortest`, `Lib.Binary64.repr`.

## Main results

* `Lib.Binary64.ofMagnitude_magnitude`: rounding keeps the numbers of the format.
* `Lib.Binary64.ofLiteral_repr`: a number is the one its literal is rounded to.
-/

namespace Lib

/-- The mantissas and exponents of the finite numbers: a mantissa of 53 bits, whose first one is set
unless the exponent is the least. -/
def Binary64.Canonical (mantissa : ℕ) (exponent : ℤ) : Prop :=
  mantissa < 2 ^ 53 ∧ -1074 ≤ exponent ∧ exponent ≤ 971 ∧ (2 ^ 52 ≤ mantissa ∨ exponent = -1074)

instance (mantissa : ℕ) (exponent : ℤ) : Decidable (Binary64.Canonical mantissa exponent) :=
  inferInstanceAs (Decidable (_ ∧ _ ∧ _ ∧ (_ ∨ _)))

/-- A finite number of the format binary64. -/
@[ext]
structure Binary64 where
  negative : Bool
  mantissa : ℕ
  exponent : ℤ
  canonical : Binary64.Canonical mantissa exponent
deriving DecidableEq

namespace Binary64

/-- The number without its sign. -/
def magnitude (x : Binary64) : ℚ := x.mantissa * 2 ^ x.exponent

/-! ### Rounding -/

/-- The nearest natural number, the even one of two. -/
def halfEven (q : ℚ) : ℕ :=
  let n := ⌊q⌋₊
  if q - n < 1 / 2 ∨ q - n = 1 / 2 ∧ n % 2 = 0 then n else n + 1

/-- The exponent of the last bit. -/
def grid (q : ℚ) : ℤ := if q = 0 then -1074 else max (-1074) (Int.log 2 q - 52)

/-- A mantissa that rounding has made too long. -/
def carried (mantissa : ℕ) (exponent : ℤ) : ℕ × ℤ :=
  if mantissa = 2 ^ 53 then (2 ^ 52, exponent + 1) else (mantissa, exponent)

/-- The nearest number of the format, if there is no overflow. -/
def ofMagnitude (negative : Bool) (q : ℚ) : Option Binary64 :=
  let rounded := carried (halfEven (q / 2 ^ grid q)) (grid q)
  if h : Canonical rounded.1 rounded.2 then some ⟨negative, rounded.1, rounded.2, h⟩ else none

/-- `float` of a literal, if it is finite. -/
def ofLiteral (l : NumberLiteral) : Option Binary64 :=
  ofMagnitude l.negative |l.toDecimal.value|

theorem halfEven_natCast (n : ℕ) : halfEven n = n := by
  simp [halfEven]

/-- The exponent of a number is that of its last bit. -/
theorem grid_magnitude (x : Binary64) : grid x.magnitude = x.exponent := by
  obtain ⟨negative, mantissa, exponent, hlt, hleast, -, hfirst⟩ := x
  have htwo : (0 : ℚ) < 2 ^ exponent := by positivity
  obtain rfl | hpos := Nat.eq_zero_or_pos mantissa
  · have hexponent : exponent = -1074 := hfirst.resolve_left (by norm_num)
    rw [magnitude, Nat.cast_zero, zero_mul, grid, if_pos rfl]
    exact hexponent.symm
  have hmantissa : (0 : ℚ) < mantissa := by exact_mod_cast hpos
  have hq : (0 : ℚ) < mantissa * 2 ^ exponent := mul_pos hmantissa htwo
  have hpow (n : ℕ) : ((2 : ℕ) : ℚ) ^ (n + exponent) = 2 ^ n * 2 ^ exponent := by
    rw [Nat.cast_ofNat, zpow_add₀ two_ne_zero, zpow_natCast]
  have hupper : Int.log 2 ((mantissa : ℚ) * 2 ^ exponent) < (53 : ℕ) + exponent := by
    rw [← Int.lt_zpow_iff_log_lt (by norm_num) hq, hpow]
    exact mul_lt_mul_of_pos_right (by exact_mod_cast hlt) htwo
  rw [magnitude, grid, if_neg hq.ne']
  dsimp only
  push_cast at hupper
  rcases hfirst with hfirst | hexponent
  · have hlower : (52 : ℕ) + exponent ≤ Int.log 2 ((mantissa : ℚ) * 2 ^ exponent) := by
      rw [← Int.zpow_le_iff_le_log (by norm_num) hq, hpow]
      exact mul_le_mul_of_nonneg_right (by exact_mod_cast hfirst) htwo.le
    push_cast at hlower
    omega
  · omega

/-- **Rounding keeps the numbers of the format.** -/
theorem ofMagnitude_magnitude (x : Binary64) : ofMagnitude x.negative x.magnitude = some x := by
  have hquotient : x.magnitude / 2 ^ x.exponent = x.mantissa := by
    rw [magnitude, mul_div_assoc, div_self (by positivity), mul_one]
  have hcarried : carried x.mantissa x.exponent = (x.mantissa, x.exponent) :=
    if_neg x.canonical.1.ne
  simp only [ofMagnitude, grid_magnitude, hquotient, halfEven_natCast, hcarried]
  rw [dif_pos x.canonical]

/-! ### The shortest digits -/

/-- `d * 10 ^ s` rounds to a number. -/
def RoundsTo (x : Binary64) (d : ℕ) (s : ℤ) : Prop :=
  ofMagnitude x.negative (d * 10 ^ s) = some x

instance (x : Binary64) (d : ℕ) (s : ℤ) : Decidable (x.RoundsTo d s) :=
  inferInstanceAs (Decidable (_ = _))

/-- A decimal with `n` digits, or `10 ^ n`, which needs only one. -/
def atMost (n d : ℕ) (s : ℤ) : ℕ × ℤ := if d = 10 ^ n then (1, s + n) else (d, s)

/-- The decimal with `n` digits that is next to a number, if it rounds to the number. -/
def withDigits (x : Binary64) (n : ℕ) : Option (ℕ × ℤ) :=
  let s := Int.log 10 x.magnitude + 1 - n
  let low := ⌊x.magnitude / 10 ^ s⌋₊
  if x.RoundsTo low s ∧ (halfEven (x.magnitude / 10 ^ s) = low ∨ ¬x.RoundsTo (low + 1) s) then
    some (low, s)
  else if x.RoundsTo (low + 1) s then some (atMost n (low + 1) s)
  else none

/-- All digits of a number. -/
def allDigits (x : Binary64) : ℕ × ℤ :=
  if 0 ≤ x.exponent then (x.mantissa * 2 ^ x.exponent.toNat, 0)
  else (x.mantissa * 5 ^ (-x.exponent).toNat, x.exponent)

/-- The decimal with the fewest digits that rounds to a number. Seventeen digits always do. -/
def shortest (x : Binary64) : ℕ × ℤ :=
  ((List.range 17).findSome? fun n => x.withDigits (n + 1)).getD x.allDigits

theorem roundsTo_allDigits (x : Binary64) : x.RoundsTo x.allDigits.1 x.allDigits.2 := by
  have hvalue : (x.allDigits.1 : ℚ) * 10 ^ x.allDigits.2 = x.magnitude := by
    rw [allDigits, magnitude]
    split_ifs with h
    · obtain ⟨n, hn⟩ := Int.eq_ofNat_of_zero_le h
      rw [hn]
      push_cast
      rw [mul_one, Int.toNat_natCast, zpow_natCast]
    · obtain ⟨n, hn⟩ := Int.eq_ofNat_of_zero_le (show 0 ≤ -x.exponent by omega)
      have hexponent : x.exponent = -n := by omega
      have hten : (10 : ℚ) = 2 * 5 := by norm_num
      rw [hn, hexponent]
      push_cast
      rw [Int.toNat_natCast, zpow_neg, zpow_neg, zpow_natCast, zpow_natCast, hten, mul_pow]
      field_simp
  rw [RoundsTo, hvalue, ofMagnitude_magnitude]

theorem roundsTo_atMost {x : Binary64} {n d : ℕ} {s : ℤ} :
    x.RoundsTo (atMost n d s).1 (atMost n d s).2 ↔ x.RoundsTo d s := by
  unfold atMost
  split_ifs with h
  · have hvalue : ((1 : ℕ) : ℚ) * 10 ^ (s + n) = d * 10 ^ s := by
      rw [h, zpow_add₀ (by norm_num), zpow_natCast]
      push_cast
      ring
    rw [RoundsTo, RoundsTo, hvalue]
  · rfl

theorem roundsTo_withDigits {x : Binary64} {n d : ℕ} {s : ℤ}
    (h : x.withDigits n = some (d, s)) : x.RoundsTo d s := by
  unfold withDigits at h
  dsimp only at h
  split_ifs at h with hlow hhigh
  · rw [Option.some.injEq, Prod.mk.injEq] at h
    rw [← h.1, ← h.2]
    exact hlow.1
  · have hdigits := roundsTo_atMost (n := n).2 hhigh
    rw [Option.some.inj h] at hdigits
    exact hdigits

/-- The shortest digits round to the number. -/
theorem roundsTo_shortest (x : Binary64) : x.RoundsTo x.shortest.1 x.shortest.2 := by
  unfold shortest
  cases h : (List.range 17).findSome? fun n => x.withDigits (n + 1) with
  | none => exact x.roundsTo_allDigits
  | some digits =>
    obtain ⟨n, -, hn⟩ := List.exists_of_findSome?_eq_some h
    exact roundsTo_withDigits hn

/-! ### The literal -/

/-- The last digits of a number, if any are asked for. -/
def lastDigitText (places n : ℕ) : Option DigitText :=
  if h : places = 0 then none
  else some
    { text := lastDigits places n
      ne_nil := by
        rw [← List.length_pos_iff, length_lastDigits]
        omega
      isDigit := List.all_eq_true.2 fun _ hc => DecimalNumber.isDigit_of_mem_lastDigits hc }

/-- An exponent with at least two digits. -/
def exponentText (e : ℤ) : ExponentText where
  capital := false
  sign := some (decide (e < 0))
  digits :=
    { text := zeroPadded 2 e.natAbs
      ne_nil := by simp [zeroPadded, Nat.toDigits_ne_nil]
      isDigit := List.all_eq_true.2 fun c hc => by
        rcases List.mem_append.1 hc with hc | hc
        · rw [List.eq_of_mem_replicate hc]
          rfl
        · exact isDigit_of_mem_toDigits hc }

/-- `d * 10 ^ s` as `repr` writes it: with an exponent when the point is far from the digits. -/
def decimalLiteral (negative : Bool) (d : ℕ) (s : ℤ) : NumberLiteral :=
  let digits := (Nat.toDigits 10 d).length
  let point := digits + s
  if -4 < point ∧ point ≤ 16 then
    if 0 ≤ s then
      { negative, whole := d * 10 ^ s.toNat, fraction := lastDigitText 1 0 }
    else
      { negative
        whole := d / 10 ^ (-s).toNat
        fraction := lastDigitText (-s).toNat (d % 10 ^ (-s).toNat) }
  else
    { negative
      whole := d / 10 ^ (digits - 1)
      fraction := lastDigitText (digits - 1) (d % 10 ^ (digits - 1))
      exponent := some (exponentText (point - 1)) }

/-- `float.__repr__`. -/
def repr (x : Binary64) : NumberLiteral :=
  decimalLiteral x.negative x.shortest.1 x.shortest.2

theorem ofDigitChars_lastDigits {places n : ℕ} (h : n < 10 ^ places) :
    Nat.ofDigitChars 10 (lastDigits places n) 0 = n := by
  induction places generalizing n with
  | zero =>
    rw [pow_zero] at h
    rw [lastDigits, Nat.ofDigitChars_nil]
    omega
  | succ places ih =>
    rw [pow_succ] at h
    rw [lastDigits, Nat.ofDigitChars_append, ih (by omega),
      Nat.ofDigitChars_cons_digitChar_of_lt_ten (Nat.mod_lt _ (by norm_num)),
      Nat.ofDigitChars_nil]
    omega

theorem value_exponentText (e : ℤ) : (exponentText e).value = e := by
  have hdigits : (exponentText e).digits.value = e.natAbs := by
    change Nat.ofDigitChars 10 (List.replicate _ '0' ++ Nat.toDigits 10 e.natAbs) 0 = e.natAbs
    rw [Nat.ofDigitChars_append, Nat.ofDigitChars_replicate_zero, mul_zero,
      Nat.ofDigitChars_ten_toDigits]
  have hsign : (exponentText e).sign = some (decide (e < 0)) := rfl
  rw [ExponentText.value, hdigits, hsign]
  by_cases h : e < 0
  · rw [if_pos (by rw [decide_eq_true h])]
    omega
  · rw [if_neg (by rw [decide_eq_false h]; exact nofun)]
    omega

/-- The digits of a number before and after a point. -/
theorem toDecimal_split (negative : Bool) (d places : ℕ) (exponent : Option ExponentText) :
    NumberLiteral.toDecimal { negative, whole := d / 10 ^ places
                              fraction := lastDigitText places (d % 10 ^ places), exponent } =
      ⟨negative, d, exponent.elim 0 ExponentText.value - places⟩ := by
  obtain rfl | hplaces := Nat.eq_zero_or_pos places
  · simp [NumberLiteral.toDecimal, lastDigitText]
  · have hvalue : Nat.ofDigitChars 10 (lastDigits places (d % 10 ^ places)) 0 = d % 10 ^ places :=
      ofDigitChars_lastDigits (Nat.mod_lt _ (by positivity))
    have hsplit : d / 10 ^ places * 10 ^ places + d % 10 ^ places = d := Nat.div_add_mod' d _
    simp [NumberLiteral.toDecimal, lastDigitText, hplaces.ne', DigitText.value, hvalue, hsplit]

/-- **The number of the literal.** -/
theorem value_decimalLiteral (negative : Bool) (d : ℕ) (s : ℤ) :
    (decimalLiteral negative d s).toDecimal.value = (⟨negative, d, s⟩ : DecimalNumber).value := by
  have hlength : 0 < (Nat.toDigits 10 d).length := List.length_pos_iff.2 Nat.toDigits_ne_nil
  unfold decimalLiteral
  dsimp only
  split_ifs with hpoint hs
  · obtain ⟨n, rfl⟩ := Int.eq_ofNat_of_zero_le hs
    have hzero : Nat.ofDigitChars 10 (lastDigits 1 0) 0 = 0 := rfl
    simp [NumberLiteral.toDecimal, lastDigitText, DigitText.value, hzero, DecimalNumber.value,
      DecimalNumber.sign]
  · rw [toDecimal_split]
    congr 2
    rw [Option.elim_none]
    omega
  · rw [toDecimal_split, Option.elim_some, value_exponentText]
    congr 2
    omega

@[simp] theorem negative_decimalLiteral (negative : Bool) (d : ℕ) (s : ℤ) :
    (decimalLiteral negative d s).negative = negative := by
  unfold decimalLiteral
  dsimp only
  split_ifs <;> rfl

/-- A literal of a float is none of an integer. -/
theorem isInteger_repr (x : Binary64) : x.repr.isInteger = false := by
  unfold repr decimalLiteral
  dsimp only
  split_ifs with hpoint hs
  · rfl
  · have hplaces : ¬(-x.shortest.2).toNat = 0 := by omega
    simp [NumberLiteral.isInteger, lastDigitText, hplaces]
  · simp [NumberLiteral.isInteger]

/-- **A number is the one its literal is rounded to.** -/
theorem ofLiteral_repr (x : Binary64) : ofLiteral x.repr = some x := by
  have hvalue : |x.repr.toDecimal.value| = x.shortest.1 * 10 ^ x.shortest.2 := by
    rw [repr, value_decimalLiteral, DecimalNumber.value, DecimalNumber.sign]
    have hpos : (0 : ℚ) ≤ (x.shortest.1 : ℚ) * 10 ^ x.shortest.2 := by positivity
    dsimp only
    split_ifs
    · rw [mul_assoc, neg_one_mul, abs_neg, abs_of_nonneg hpos]
    · rw [one_mul, abs_of_nonneg hpos]
  rw [ofLiteral, hvalue, repr, negative_decimalLiteral]
  exact x.roundsTo_shortest

theorem repr_injective : Function.Injective repr := by
  intro x y h
  have hx := x.ofLiteral_repr
  rw [h, y.ofLiteral_repr] at hx
  exact (Option.some.inj hx).symm

end Binary64

end Lib
