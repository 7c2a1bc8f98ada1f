import CdcFlight.Lib.DecimalNumber

/-!
# Numerics of variable scale

`_encode_variable_numeric` of `typed_value_codec.py` and the identity of `identity_codec.py`: a
numeric without a fixed scale is stored as a coefficient and a scale. Both go through
`Decimal.scaleb`, whose result is rounded to the digits of the default context.

The exponent limits of the context are far beyond those of a PostgreSQL numeric and are left out.
Texts are lists of characters; only ASCII digits are digits.

## Main definitions

* `CdcFlight.NumericInput`: the forms in which a numeric arrives.
* `CdcFlight.encodeVariableNumeric`, `CdcFlight.numericIdentity`, `CdcFlight.identityTree`.

## Main results

* `CdcFlight.NumericInput.faithful_iff`: where two numerics keep their values and identities.
-/

namespace CdcFlight

open Lib

/-! ### Values -/

/-- NaN and the infinities. -/
inductive NumericSpecial
  | nan
  | infinity
  | negativeInfinity
deriving DecidableEq, Repr

/-- A Python `Decimal`. -/
inductive PyDecimal
  | finite (d : DecimalNumber)
  | special (x : NumericSpecial)
deriving DecidableEq, Repr

/-- `getcontext().prec`, which nothing sets. -/
def contextPrecision : ℕ := 28

/-- `Decimal.scaleb` in the default context. -/
def PyDecimal.scaleb (n : ℤ) : PyDecimal → PyDecimal
  | .finite d => .finite (d.scaleb contextPrecision n)
  | .special x => .special x

/-- `int(d)`. -/
def PyDecimal.toInt : PyDecimal → Except String ℤ
  | .finite d => .ok d.toInt
  | .special .nan => .error "cannot convert NaN to integer"
  | .special _ => .error "cannot convert Infinity to integer"

/-- `text.strip()`. -/
def stripSpace (text : List Char) : List Char := stripBy isSpace text

/-- A sign, if there is one. -/
def readSign : List Char → Bool × List Char
  | '-' :: text => (true, text)
  | '+' :: text => (false, text)
  | text => (false, text)

/-- The exponent at the end of a number. -/
def readExponent : List Char → Option ℤ
  | [] => some 0
  | mark :: text =>
    let (negative, digits) := readSign text
    if (mark = 'e' ∨ mark = 'E') ∧ digits ≠ [] ∧ digits.all Char.isDigit then
      some (if negative then -Nat.ofDigitChars 10 digits 0 else Nat.ofDigitChars 10 digits 0)
    else none

/-- `Decimal(text)`, of the text of a finite number. -/
def decimalOfText (text : List Char) : Option DecimalNumber :=
  let (negative, text) := readSign (stripSpace text)
  let whole := text.takeWhile Char.isDigit
  let (fraction, rest) :=
    match text.dropWhile Char.isDigit with
    | '.' :: text => (text.takeWhile Char.isDigit, text.dropWhile Char.isDigit)
    | text => ([], text)
  if whole = [] ∧ fraction = [] then none
  else (readExponent rest).map fun exponent =>
    { negative := negative
      coefficient := Nat.ofDigitChars 10 (whole ++ fraction) 0
      exponent := exponent - fraction.length }

/-- The texts of the special values in `numeric_value`. -/
def specialOfText (lowered : String) : Option NumericSpecial :=
  if lowered ∈ ["nan", "+nan", "-nan"] then some .nan
  else if lowered ∈ ["infinity", "+infinity", "inf", "+inf", "positive_infinity",
      "positive infinity"] then some .infinity
  else if lowered ∈ ["-infinity", "-inf", "negative_infinity", "negative infinity"] then
    some .negativeInfinity
  else none

/-- A numeric as `numeric_value` tags it: the member and the value. -/
inductive NumericUnion
  | finite (d : PyDecimal)
  | special (x : NumericSpecial)
deriving DecidableEq, Repr

/-- `numeric_value`, of a text. -/
def numericOfText (text : List Char) : Except String NumericUnion :=
  match specialOfText (String.ofList ((stripSpace text).map Char.toLower)) with
  | some x => .ok (.special x)
  | none =>
    match decimalOfText text with
    | some d => .ok (.finite (.finite d))
    | none => .error "value of type builtins.str is not a PostgreSQL numeric value"

/-- The destination-shaped struct. -/
structure EncodedNumeric where
  coefficient : Option ℤ := none
  scale : Option ℤ := none
  special : Option NumericSpecial := none
deriving DecidableEq, Repr

/-- The member `value` of a struct `{value, scale}`. -/
inductive StructValue
  | bytes (raw : List UInt8)
  | text (raw : List Char)
deriving DecidableEq, Repr

/-- `int.from_bytes(raw, byteorder="big", signed=True)`. -/
def intFromBytes (raw : List UInt8) : ℤ :=
  let unsigned : ℕ := raw.foldl (fun n byte => n * 256 + byte.toNat) 0
  if raw.head?.any (128 ≤ ·.toNat) then (unsigned : ℤ) - 256 ^ raw.length else unsigned

/-- The forms in which a numeric arrives: a text, a `Decimal`, a float that is not finite, a struct
of value and scale, or the destination-shaped struct. -/
inductive NumericInput
  | text (raw : List Char)
  | decimal (d : PyDecimal)
  | float (x : NumericSpecial)
  | struct (value : StructValue) (scale : ℤ)
  | encoded (e : EncodedNumeric)
deriving DecidableEq, Repr

/-! ### Encoding -/

/-- The coefficient and the scale that are stored of a tagged numeric. -/
def encodeUnion (scaleOf : DecimalNumber → ℤ) : NumericUnion → Except String EncodedNumeric
  | .special x => .ok { special := some x }
  | .finite (.finite d) => .ok
      { coefficient := some (d.scaleb contextPrecision (scaleOf d)).toInt
        scale := some (scaleOf d) }
  | .finite (.special x) => do
      let coefficient ← ((PyDecimal.special x).scaleb 0).toInt
      .ok { coefficient := some coefficient, scale := some 0 }

/-- `_encode_variable_numeric`. -/
def encodeVariableNumeric : NumericInput → Except String EncodedNumeric
  | .encoded e =>
    match e.special, e.coefficient with
    | some x, _ => .ok { special := some x }
    | none, none => .ok {}
    | none, some coefficient =>
      .ok { coefficient := some coefficient, scale := some (e.scale.getD 0) }
  | .struct (.bytes raw) scale =>
    .ok { coefficient := some (intFromBytes raw), scale := some scale }
  | .struct (.text raw) scale => do
    let numeric ← numericOfText raw
    encodeUnion (fun _ => scale) numeric
  | .text raw => do
    let numeric ← numericOfText raw
    encodeUnion (fun d => -d.exponent) numeric
  | .decimal d => encodeUnion (fun d => -d.exponent) (.finite d)
  | .float x => encodeUnion (fun d => -d.exponent) (.special x)

/-! ### Identities -/

/-- `_canonical_float`, of a special value. -/
def NumericSpecial.canonicalFloat : NumericSpecial → String
  | .nan => "NaN"
  | .infinity => "Infinity"
  | .negativeInfinity => "-Infinity"

/-- `{"numeric": {"finite": text}}` and `{"numeric": {"special": text}}`. -/
inductive NumericIdentity
  | finite (text : List Char)
  | special (text : String)
deriving DecidableEq, Repr

/-- `_canonical_decimal_text`. -/
def canonicalDecimalText (d : DecimalNumber) : List Char :=
  let text := d.plainText
  if text = [] ∨ text = ['-', '0'] then ['0'] else text

/-- `Decimal(coefficient).scaleb(-scale)`. -/
def rescaled (coefficient scale : ℤ) : DecimalNumber :=
  (DecimalNumber.ofInt coefficient).scaleb contextPrecision (-scale)

/-- `_numeric_identity`, of the struct. -/
def numericIdentity (e : EncodedNumeric) : Except String NumericIdentity :=
  match e.special, e.coefficient with
  | some x, _ => .ok (.special x.canonicalFloat)
  | none, none => .error ("int() argument must be a string, a bytes-like object or a real " ++
      "number, not 'NoneType'")
  | none, some coefficient =>
    .ok (.finite (canonicalDecimalText (rescaled coefficient (e.scale.getD 0))))

/-- The kinds of a descriptor whose destination is the struct. -/
inductive NumericKind
  | numeric
  | numericVariable
deriving DecidableEq, Repr

/-- `_identity_tree`, of a numeric. -/
def identityTree (kind : NumericKind) (value : NumericInput) : Except String NumericIdentity := do
  let e ← encodeVariableNumeric value
  match kind with
  | .numeric => numericIdentity e
  | .numericVariable =>
    match e.special, e.coefficient with
    | some x, _ => .ok (.special x.canonicalFloat)
    | none, none => .ok (.finite ['0'])
    | none, some coefficient =>
      .ok (.finite (canonicalDecimalText (rescaled coefficient (e.scale.getD 0))))

/-! ### What they are for -/

/-- A PostgreSQL numeric. -/
inductive PgNumeric
  | finite (q : ℚ)
  | special (x : NumericSpecial)
deriving DecidableEq

/-- The number that is stored. -/
def EncodedNumeric.meaning (e : EncodedNumeric) : Option PgNumeric :=
  match e.special, e.coefficient with
  | some x, _ => some (.special x)
  | none, none => none
  | none, some coefficient => some (.finite (coefficient * 10 ^ (-e.scale.getD 0)))

/-- The exact reading of an input: a value of a struct has no more decimals than its scale. -/
def NumericInput.reading : NumericInput → Option PyDecimal
  | .text raw =>
    match numericOfText raw with
    | .ok (.finite d) => some d
    | .ok (.special x) => some (.special x)
    | .error _ => none
  | .decimal d => some d
  | .float x => some (.special x)
  | .struct (.bytes raw) scale =>
    some (.finite { DecimalNumber.ofInt (intFromBytes raw) with exponent := -scale })
  | .struct (.text raw) scale =>
    match numericOfText raw with
    | .ok (.finite (.finite d)) => if 0 ≤ d.exponent + scale then some (.finite d) else none
    | .ok (.finite (.special x)) => some (.special x)
    | .ok (.special x) => some (.special x)
    | .error _ => none
  | .encoded e =>
    match e.special, e.coefficient with
    | some x, _ => some (.special x)
    | none, none => none
    | none, some coefficient =>
      some (.finite { DecimalNumber.ofInt coefficient with exponent := -e.scale.getD 0 })

/-- The numeric of a reading. -/
def PyDecimal.meaning : PyDecimal → PgNumeric
  | .finite d => .finite d.value
  | .special x => .special x

/-- **Two numerics keep their values and their identities**: each is stored as it is, and they have
one identity if and only if they are equal. -/
structure NumericInput.Faithful (v w : NumericInput) (m n : PgNumeric) : Prop where
  left : ∃ e, encodeVariableNumeric v = .ok e ∧ e.meaning = some m
  right : ∃ e, encodeVariableNumeric w = .ok e ∧ e.meaning = some n
  identity : ∀ kind, ∃ i j, identityTree kind v = .ok i ∧ identityTree kind w = .ok j ∧
    (i = j ↔ m = n)

/-- The input is not shortened: a text or a `Decimal` is a number of at most 28 significant digits
(or the text of a special value), a struct has its coefficient as an integer. -/
def NumericInput.Kept : NumericInput → Prop
  | .text raw => ∀ d, (NumericInput.text raw).reading = some (.finite d) →
      d.Significant contextPrecision
  | .decimal (.finite d) => d.Significant contextPrecision
  | .decimal (.special _) => False
  | .float _ => True
  | .struct (.bytes _) _ => True
  | .struct (.text raw) scale => ∀ d,
      (NumericInput.struct (.text raw) scale).reading = some (.finite d) →
      d.Significant contextPrecision
  | .encoded _ => True

/-- Two numbers do not become one when they are rounded to 28 digits, the precision of the default
decimal context. Inputs that are not finite numbers are not rounded. -/
def NumericInput.Apart (v w : NumericInput) : Prop :=
  ∀ d e, v.reading = some (.finite d) → w.reading = some (.finite e) →
    (d.round contextPrecision).value = (e.round contextPrecision).value → d.value = e.value

/-! ### Encoded numbers -/

section Encoding

variable {v w : NumericInput} {d : DecimalNumber} {x y : PyDecimal}

theorem contextPrecision_pos : 0 < contextPrecision := by decide

/-- A number that is scaled to an integer is rounded. -/
theorem toInt_scaleb {n : ℤ} (h : 0 ≤ d.exponent + n) :
    ((d.scaleb contextPrecision n).toInt : ℚ) * 10 ^ (-n) = (d.round contextPrecision).value := by
  have hten : (10 : ℚ) ^ n ≠ 0 := zpow_ne_zero _ (by norm_num)
  have hexp : 0 ≤ (d.scaleb contextPrecision n).exponent :=
    h.trans (DecimalNumber.le_exponent_round contextPrecision _)
  rw [DecimalNumber.toInt_eq hexp, DecimalNumber.scaleb, DecimalNumber.round_shift, zpow_neg,
    mul_assoc, mul_inv_cancel₀ hten, mul_one]

/-- The number of a struct. -/
theorem value_struct (coefficient scale : ℤ) :
    ({ DecimalNumber.ofInt coefficient with exponent := -scale } : DecimalNumber).value =
      coefficient * 10 ^ (-scale) := by
  have hvalue := DecimalNumber.value_ofInt coefficient
  unfold DecimalNumber.value DecimalNumber.sign at hvalue ⊢
  rw [show (DecimalNumber.ofInt coefficient).exponent = 0 from rfl, zpow_zero, mul_one] at hvalue
  dsimp only
  rw [hvalue]

/-- What the identity takes for the number of a struct. -/
theorem value_rescaled {coefficient scale : ℤ} (h : coefficient * (10 : ℚ) ^ (-scale) = d.value) :
    (rescaled coefficient scale).value = (d.round contextPrecision).value := by
  refine DecimalNumber.round_value_congr contextPrecision_pos ?_
  rw [← h, ← value_struct]
  unfold DecimalNumber.value DecimalNumber.sign
  dsimp only
  rw [show (DecimalNumber.ofInt coefficient).exponent = 0 from rfl, zero_add]

/-- The input has its coefficient as an integer. -/
def NumericInput.integral : NumericInput → Bool
  | .struct (.bytes _) _ => true
  | .encoded _ => true
  | _ => false

/-- **What is stored of a finite number**: the number itself, or the rounded one. -/
theorem encode_finite (h : v.reading = some (.finite d)) :
    ∃ coefficient scale, encodeVariableNumeric v =
        .ok { coefficient := some coefficient, scale := some scale } ∧
      (coefficient : ℚ) * 10 ^ (-scale) =
        if v.integral then d.value else (d.round contextPrecision).value := by
  have hself : 0 ≤ d.exponent + -d.exponent := by omega
  cases v with
  | text raw =>
    simp only [NumericInput.reading] at h
    split at h
    · next numeric hnumeric =>
      obtain rfl := Option.some.inj h
      refine ⟨_, -d.exponent, ?_, toInt_scaleb hself⟩
      simp only [encodeVariableNumeric]
      rw [hnumeric]
      rfl
    · cases h
    · cases h
  | decimal numeric =>
    obtain rfl := Option.some.inj h
    exact ⟨_, -d.exponent, rfl, toInt_scaleb hself⟩
  | float special => cases h
  | struct value scale =>
    cases value with
    | bytes raw =>
      obtain rfl := PyDecimal.finite.inj (Option.some.inj h)
      exact ⟨_, scale, rfl, (value_struct _ _).symm⟩
    | text raw =>
      simp only [NumericInput.reading] at h
      split at h
      · next numeric hnumeric =>
        split_ifs at h with hscale
        obtain rfl := PyDecimal.finite.inj (Option.some.inj h)
        refine ⟨_, scale, ?_, toInt_scaleb hscale⟩
        simp only [encodeVariableNumeric]
        rw [hnumeric]
        rfl
      · cases h
      · cases h
      · cases h
  | encoded e =>
    simp only [NumericInput.reading] at h
    split at h
    · cases h
    · cases h
    · next coefficient hspecial hcoefficient =>
      obtain rfl := PyDecimal.finite.inj (Option.some.inj h)
      refine ⟨coefficient, e.scale.getD 0, ?_, (value_struct _ _).symm⟩
      unfold encodeVariableNumeric
      dsimp only
      rw [hspecial, hcoefficient]

/-- The text of a number is read as a finite one. -/
theorem numericOfText_finite {raw : List Char} (h : numericOfText raw = .ok (.finite x)) :
    ∃ d, x = .finite d := by
  unfold numericOfText at h
  split at h
  · cases h
  · split at h
    · next d _ =>
      obtain rfl := NumericUnion.finite.inj (Except.ok.inj h)
      exact ⟨d, rfl⟩
    · cases h

/-- A special value is stored as it is, unless it is a `Decimal`. -/
theorem encode_special {special : NumericSpecial} (h : v.reading = some (.special special)) :
    v.Kept ∧ encodeVariableNumeric v = .ok { special := some special } ∨
      ¬ v.Kept ∧ ∃ message, encodeVariableNumeric v = .error message := by
  cases v with
  | text raw =>
    refine Or.inl ⟨fun d hd => ?_, ?_⟩
    · cases h.symm.trans hd
    · simp only [NumericInput.reading] at h
      split at h
      · next numeric hnumeric =>
        obtain ⟨d, rfl⟩ := numericOfText_finite hnumeric
        cases h
      · next x hnumeric =>
        obtain rfl := PyDecimal.special.inj (Option.some.inj h)
        simp only [encodeVariableNumeric]
        rw [hnumeric]
        rfl
      · cases h
  | decimal numeric =>
    obtain rfl := Option.some.inj h
    refine Or.inr ⟨not_false, ?_⟩
    cases special with
    | nan => exact ⟨_, rfl⟩
    | infinity => exact ⟨_, rfl⟩
    | negativeInfinity => exact ⟨_, rfl⟩
  | float x =>
    obtain rfl := PyDecimal.special.inj (Option.some.inj h)
    exact Or.inl ⟨trivial, rfl⟩
  | struct value scale =>
    cases value with
    | bytes raw => cases h
    | text raw =>
      refine Or.inl ⟨fun d hd => ?_, ?_⟩
      · cases h.symm.trans hd
      · simp only [NumericInput.reading] at h
        split at h
        · split_ifs at h
          cases h
        · next x hnumeric =>
          obtain ⟨d, hd⟩ := numericOfText_finite hnumeric
          cases hd
        · next x hnumeric =>
          obtain rfl := PyDecimal.special.inj (Option.some.inj h)
          simp only [encodeVariableNumeric]
          rw [hnumeric]
          rfl
        · cases h
  | encoded e =>
    refine Or.inl ⟨trivial, ?_⟩
    simp only [NumericInput.reading] at h
    split at h
    · next x hspecial =>
      obtain rfl := PyDecimal.special.inj (Option.some.inj h)
      simp only [encodeVariableNumeric]
      rw [hspecial]
    · cases h
    · cases h

/-- Of a finite number, an input is kept when the number that is stored is the number itself. -/
theorem kept_iff_of_finite (h : v.reading = some (.finite d)) :
    v.Kept ↔ (if v.integral then d.value else (d.round contextPrecision).value) = d.value := by
  have hround := DecimalNumber.round_value_eq_iff contextPrecision_pos (d := d)
  cases v with
  | text raw =>
    refine Iff.trans ⟨fun hkept => hkept d h, fun hd d' hd' => ?_⟩ hround.symm
    obtain rfl := PyDecimal.finite.inj (Option.some.inj (h.symm.trans hd'))
    exact hd
  | decimal numeric =>
    obtain rfl := Option.some.inj h
    exact hround.symm
  | float special => cases h
  | struct value scale =>
    cases value with
    | bytes raw => exact iff_of_true trivial rfl
    | text raw =>
      refine Iff.trans ⟨fun hkept => hkept d h, fun hd d' hd' => ?_⟩ hround.symm
      obtain rfl := PyDecimal.finite.inj (Option.some.inj (h.symm.trans hd'))
      exact hd
  | encoded e => exact iff_of_true trivial rfl

/-- **An input is stored as it is** if and only if it is kept. -/
theorem stored_iff (h : v.reading = some x) :
    (∃ e, encodeVariableNumeric v = .ok e ∧ e.meaning = some x.meaning) ↔ v.Kept := by
  cases x with
  | finite d =>
    obtain ⟨coefficient, scale, hencode, hvalue⟩ := encode_finite h
    rw [kept_iff_of_finite h, hencode, ← hvalue]
    constructor
    · rintro ⟨e, he, hmeaning⟩
      obtain rfl := Except.ok.inj he
      exact PgNumeric.finite.inj (Option.some.inj hmeaning)
    · intro hsame
      exact ⟨_, rfl, congrArg (some ∘ PgNumeric.finite) hsame⟩
  | special special =>
    rcases encode_special h with ⟨hkept, hencode⟩ | ⟨hkept, message, hencode⟩
    · exact iff_of_true ⟨_, hencode, rfl⟩ hkept
    · refine iff_of_false ?_ hkept
      rintro ⟨e, he, -⟩
      cases hencode.symm.trans he

/-! ### Identities -/

/-- What an identity stands for. -/
def NumericIdentity.Of (i : NumericIdentity) : PyDecimal → Prop
  | .finite d => ∃ r : DecimalNumber, i = .finite (canonicalDecimalText r) ∧
      r.value = (d.round contextPrecision).value
  | .special x => i = .special x.canonicalFloat

/-- **What the identities are built from**: the rounded number, or the special value. -/
theorem identityTree_of (hkept : v.Kept) (h : v.reading = some x) (kind : NumericKind) :
    ∃ i, identityTree kind v = .ok i ∧ i.Of x := by
  cases x with
  | finite d =>
    obtain ⟨coefficient, scale, hencode, hvalue⟩ := encode_finite h
    rw [(kept_iff_of_finite h).1 hkept] at hvalue
    refine ⟨.finite (canonicalDecimalText (rescaled coefficient scale)), ?_,
      _, rfl, value_rescaled hvalue⟩
    unfold identityTree
    rw [hencode]
    cases kind <;> rfl
  | special special =>
    rcases encode_special h with ⟨-, hencode⟩ | ⟨hnot, -⟩
    · refine ⟨.special special.canonicalFloat, ?_, rfl⟩
      unfold identityTree
      rw [hencode]
      cases kind <;> rfl
    · exact absurd hkept hnot

theorem canonicalDecimalText_eq (d : DecimalNumber) : canonicalDecimalText d = d.plainText := by
  obtain ⟨hempty, hzero⟩ := d.plainText_ne
  unfold canonicalDecimalText
  dsimp only
  rw [if_neg (not_or.2 ⟨hempty, hzero⟩)]

theorem canonicalFloat_inj {a b : NumericSpecial} (h : a.canonicalFloat = b.canonicalFloat) :
    a = b := by
  cases a <;> cases b <;> first | rfl | (revert h; decide)

/-- The identities of finite numbers are those of the rounded numbers. -/
theorem identity_eq_iff_round {i j : NumericIdentity} {e : DecimalNumber}
    (hi : i.Of (.finite d)) (hj : j.Of (.finite e)) :
    i = j ↔ (d.round contextPrecision).value = (e.round contextPrecision).value := by
  obtain ⟨r, rfl, hr⟩ := hi
  obtain ⟨r', rfl, hr'⟩ := hj
  rw [NumericIdentity.finite.injEq, canonicalDecimalText_eq, canonicalDecimalText_eq,
    DecimalNumber.plainText_eq_iff, hr, hr']

/-- Identities that stand for numbers that are not confused. -/
theorem identity_eq_iff {i j : NumericIdentity} (hi : i.Of x) (hj : j.Of y)
    (hapart : ∀ d e, x = .finite d → y = .finite e →
      (d.round contextPrecision).value = (e.round contextPrecision).value → d.value = e.value) :
    i = j ↔ x.meaning = y.meaning := by
  cases x with
  | finite d =>
    cases y with
    | finite e =>
      rw [identity_eq_iff_round hi hj]
      constructor
      · intro hround
        exact congrArg PgNumeric.finite (hapart d e rfl rfl hround)
      · intro hsame
        exact DecimalNumber.round_value_congr contextPrecision_pos (PgNumeric.finite.inj hsame)
    | special b =>
      obtain ⟨r, rfl, -⟩ := hi
      obtain rfl := hj
      exact iff_of_false (by simp) (by simp [PyDecimal.meaning])
  | special a =>
    obtain rfl := hi
    cases y with
    | finite e =>
      obtain ⟨r, rfl, -⟩ := hj
      exact iff_of_false (by simp) (by simp [PyDecimal.meaning])
    | special b =>
      obtain rfl := hj
      rw [NumericIdentity.special.injEq]
      constructor
      · intro hsame
        rw [canonicalFloat_inj hsame]
      · intro hsame
        rw [PgNumeric.special.inj hsame]

/-- **Variable-scale numerics are exact** if and only if neither is shortened and they do not become
one number when they are rounded. -/
theorem NumericInput.faithful_iff (v w : NumericInput) {x y : PyDecimal}
    (hv : v.reading = some x) (hw : w.reading = some y) :
    v.Faithful w x.meaning y.meaning ↔ v.Kept ∧ w.Kept ∧ v.Apart w := by
  constructor
  · rintro ⟨hleft, hright, hidentity⟩
    have hkept := (stored_iff hv).1 hleft
    have hkept' := (stored_iff hw).1 hright
    refine ⟨hkept, hkept', fun d e hd he hround => ?_⟩
    obtain rfl := Option.some.inj (hv.symm.trans hd)
    obtain rfl := Option.some.inj (hw.symm.trans he)
    obtain ⟨i, j, hi, hj, hiff⟩ := hidentity .numeric
    obtain ⟨i', hi', hof⟩ := identityTree_of hkept hv .numeric
    obtain ⟨j', hj', hof'⟩ := identityTree_of hkept' hw .numeric
    obtain rfl := Except.ok.inj (hi.symm.trans hi')
    obtain rfl := Except.ok.inj (hj.symm.trans hj')
    exact PgNumeric.finite.inj (hiff.1 ((identity_eq_iff_round hof hof').2 hround))
  · rintro ⟨hkept, hkept', hapart⟩
    refine ⟨(stored_iff hv).2 hkept, (stored_iff hw).2 hkept', fun kind => ?_⟩
    obtain ⟨i, hi, hof⟩ := identityTree_of hkept hv kind
    obtain ⟨j, hj, hof'⟩ := identityTree_of hkept' hw kind
    refine ⟨i, j, hi, hj, identity_eq_iff hof hof' fun d e hd he => ?_⟩
    exact hapart d e (hd ▸ hv) (he ▸ hw)

end Encoding

namespace Accounts

/-- A balance as PostgreSQL writes it, with a zero at its end. -/
def balance : NumericInput := .text ['1', '0', '.', '5', '0']

/-- The same balance as a struct of value and scale. -/
def balanceStruct : NumericInput := .struct (.bytes [0x04, 0x1a]) 2

/-- A balance of 29 digits. -/
def longBalance : NumericInput := .text "12345678901234567890123456789".toList

theorem faithful_balance : balance.Faithful balanceStruct
    (PyDecimal.finite ⟨false, 1050, -2⟩).meaning (PyDecimal.finite ⟨false, 1050, -2⟩).meaning := by
  have hread : balance.reading = some (.finite ⟨false, 1050, -2⟩) := by rfl
  have hread' : balanceStruct.reading = some (.finite ⟨false, 1050, -2⟩) := by rfl
  refine (NumericInput.faithful_iff balance balanceStruct hread hread').2
    ⟨fun d hd => ?_, trivial, fun d e hd he _ => ?_⟩
  · obtain rfl := PyDecimal.finite.inj (Option.some.inj (hread.symm.trans hd))
    exact ⟨1050, by decide, 0, rfl⟩
  · obtain rfl := PyDecimal.finite.inj (Option.some.inj (hread.symm.trans hd))
    obtain rfl := PyDecimal.finite.inj (Option.some.inj (hread'.symm.trans he))
    rfl

/-- **The last of 29 digits is lost.** -/
theorem not_faithful_longBalance :
    longBalance.reading = some (.finite ⟨false, 12345678901234567890123456789, 0⟩) ∧
    ¬ longBalance.Faithful longBalance
      (PyDecimal.finite ⟨false, 12345678901234567890123456789, 0⟩).meaning
      (PyDecimal.finite ⟨false, 12345678901234567890123456789, 0⟩).meaning := by
  refine ⟨by rfl, fun h => ?_⟩
  obtain ⟨e, he, hmeaning⟩ := h.left
  have hencode : encodeVariableNumeric longBalance =
      .ok { coefficient := some 12345678901234567890123456790, scale := some 0 } := by
    rfl
  obtain rfl := Except.ok.inj (hencode.symm.trans he)
  have hvalue := PgNumeric.finite.inj (Option.some.inj hmeaning)
  norm_num [DecimalNumber.value, DecimalNumber.sign] at hvalue

end Accounts

end CdcFlight
