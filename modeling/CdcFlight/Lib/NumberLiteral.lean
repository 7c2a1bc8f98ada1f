import CdcFlight.Lib.DecimalNumber

/-!
# Number literals

The numbers of JSON, as they are written: a sign, digits without zeros in front, a fraction and an
exponent. A literal is read from the left as far as it goes, and denotes a decimal number.

## Main definitions

* `Lib.NumberLiteral`, `Lib.NumberLiteral.text`, `Lib.NumberLiteral.read`.
* `Lib.NumberLiteral.toDecimal`: the number.

## Main results

* `Lib.NumberLiteral.read_append`: a literal is read back from its text.
-/

namespace Lib

/-- A text of digits. -/
structure DigitText where
  text : List Char
  ne_nil : text ≠ []
  isDigit : text.all Char.isDigit = true
deriving DecidableEq, Repr

/-- The number of the digits. -/
def DigitText.value (digits : DigitText) : ℕ := Nat.ofDigitChars 10 digits.text 0

/-- An exponent: the letter, the sign where one is written, and the digits. -/
structure ExponentText where
  capital : Bool
  sign : Option Bool
  digits : DigitText
deriving DecidableEq, Repr

namespace ExponentText

/-- The sign as it is written; `true` is the minus. -/
def signText : Option Bool → List Char
  | none => []
  | some true => ['-']
  | some false => ['+']

def text (e : ExponentText) : List Char :=
  (if e.capital then 'E' else 'e') :: (signText e.sign ++ e.digits.text)

/-- The exponent. -/
def value (e : ExponentText) : ℤ := if e.sign = some true then -e.digits.value else e.digits.value

end ExponentText

/-- A number of JSON. -/
structure NumberLiteral where
  negative : Bool
  whole : ℕ
  fraction : Option DigitText := none
  exponent : Option ExponentText := none
deriving DecidableEq, Repr

namespace NumberLiteral

/-- The text of a fraction. -/
def fractionText : Option DigitText → List Char
  | none => []
  | some digits => '.' :: digits.text

def text (l : NumberLiteral) : List Char :=
  (if l.negative then ['-'] else []) ++ (Nat.toDigits 10 l.whole ++
    (fractionText l.fraction ++ (l.exponent.map ExponentText.text).getD []))

/-- Nothing but a sign and digits. -/
def isInteger (l : NumberLiteral) : Bool := l.fraction.isNone && l.exponent.isNone

/-- The number of an integer literal. -/
def toInt (l : NumberLiteral) : ℤ := if l.negative then -l.whole else l.whole

/-- The number of a literal. -/
def toDecimal (l : NumberLiteral) : DecimalNumber where
  negative := l.negative
  coefficient := l.whole * 10 ^ (l.fraction.elim 0 fun digits => digits.text.length) +
    l.fraction.elim 0 DigitText.value
  exponent := l.exponent.elim 0 ExponentText.value -
    l.fraction.elim 0 fun digits => digits.text.length

/-- An integer, written in digits. -/
def ofInt (n : ℤ) : NumberLiteral := { negative := n < 0, whole := n.natAbs }

@[simp] theorem toInt_ofInt (n : ℤ) : (ofInt n).toInt = n := by
  unfold toInt ofInt
  dsimp only
  split_ifs with h <;> simp only [decide_eq_true_eq] at h <;> omega

theorem ofInt_injective : Function.Injective ofInt :=
  Function.LeftInverse.injective toInt_ofInt

@[simp] theorem isInteger_ofInt (n : ℤ) : (ofInt n).isInteger = true := rfl

theorem value_toDecimal_ofInt (n : ℤ) : (ofInt n).toDecimal.value = n := by
  have hdecimal : (ofInt n).toDecimal = DecimalNumber.ofInt n := by
    simp [toDecimal, ofInt, DecimalNumber.ofInt]
  rw [hdecimal, DecimalNumber.value_ofInt]

theorem value_toDecimal_of_isInteger {l : NumberLiteral} (h : l.isInteger = true) :
    l.toDecimal.value = l.toInt := by
  obtain ⟨negative, whole, fraction, exponent⟩ := l
  obtain ⟨rfl, rfl⟩ : fraction = none ∧ exponent = none := by
    rw [isInteger, Bool.and_eq_true, Option.isNone_iff_eq_none, Option.isNone_iff_eq_none] at h
    exact h
  cases negative <;> simp [toDecimal, DecimalNumber.value, DecimalNumber.sign, toInt]

/-! ### Reading -/

/-- Digits, as many as there are. -/
def readDigits (text : List Char) : Option (DigitText × List Char) :=
  if h : text.takeWhile Char.isDigit ≠ [] then
    some (⟨text.takeWhile Char.isDigit, h, List.all_takeWhile⟩, text.dropWhile Char.isDigit)
  else none

/-- `0|[1-9][0-9]*`. -/
def readWhole : List Char → Option (ℕ × List Char)
  | '0' :: text => some (0, text)
  | text => (readDigits text).map fun (digits, rest) => (digits.value, rest)

/-- `(\.[0-9]+)?`. -/
def readFraction : List Char → Option DigitText × List Char
  | '.' :: text =>
    match readDigits text with
    | some (digits, rest) => (some digits, rest)
    | none => (none, '.' :: text)
  | text => (none, text)

/-- `[-+]?`. -/
def readSign : List Char → Option Bool × List Char
  | '-' :: text => (some true, text)
  | '+' :: text => (some false, text)
  | text => (none, text)

/-- `([eE][-+]?[0-9]+)?`. -/
def readExponent : List Char → Option ExponentText × List Char
  | [] => (none, [])
  | c :: text =>
    if c = 'e' ∨ c = 'E' then
      match readDigits (readSign text).2 with
      | some (digits, rest) => (some ⟨c = 'E', (readSign text).1, digits⟩, rest)
      | none => (none, c :: text)
    else (none, c :: text)

/-- `-?`. -/
def readMinus : List Char → Bool × List Char
  | '-' :: text => (true, text)
  | text => (false, text)

/-- A literal at the start of a text, as long as possible, and the rest. -/
def read (text : List Char) : Option (NumberLiteral × List Char) :=
  (readWhole (readMinus text).2).map fun (whole, rest) =>
    let (fraction, rest) := readFraction rest
    let (exponent, rest) := readExponent rest
    ({ negative := (readMinus text).1, whole, fraction, exponent }, rest)

/-- A character that may continue a literal. -/
def continues (c : Char) : Bool := c.isDigit || c = '.' || c = 'e' || c = 'E'

/-- A text that does not continue a literal. -/
def Stops (rest : List Char) : Prop := ∀ c ∈ rest.head?, continues c = false

section Read

variable {rest : List Char}

theorem readDigits_append (digits : DigitText) (hrest : ∀ c ∈ rest.head?, c.isDigit = false) :
    readDigits (digits.text ++ rest) = some (digits, rest) := by
  have hall : ∀ c ∈ digits.text, c.isDigit = true := List.all_eq_true.1 digits.isDigit
  have hstop : rest.takeWhile Char.isDigit = [] ∧ rest.dropWhile Char.isDigit = rest := by
    cases rest with
    | nil => exact ⟨rfl, rfl⟩
    | cons c rest =>
      have hc : ¬c.isDigit = true := by
        rw [hrest c rfl]
        exact Bool.false_ne_true
      exact ⟨List.takeWhile_cons_of_neg hc, List.dropWhile_cons_of_neg hc⟩
  have htake : (digits.text ++ rest).takeWhile Char.isDigit = digits.text := by
    rw [List.takeWhile_append_of_pos hall, hstop.1, List.append_nil]
  have hdrop : (digits.text ++ rest).dropWhile Char.isDigit = rest := by
    rw [List.dropWhile_append_of_pos hall, hstop.2]
  have hne : (digits.text ++ rest).takeWhile Char.isDigit ≠ [] := by
    rw [htake]
    exact digits.ne_nil
  rw [readDigits, dif_pos hne]
  simp only [htake, hdrop]

theorem Stops.not_isDigit (h : Stops rest) : ∀ c ∈ rest.head?, c.isDigit = false := by
  intro c hc
  have hcontinues := h c hc
  rw [continues, Bool.or_eq_false_iff, Bool.or_eq_false_iff, Bool.or_eq_false_iff] at hcontinues
  exact hcontinues.1.1.1

/-- Digits are no signs. -/
theorem readSign_append (sign : Option Bool) (digits : DigitText) :
    readSign (ExponentText.signText sign ++ (digits.text ++ rest)) =
      (sign, digits.text ++ rest) := by
  obtain ⟨text, hne, hdigit⟩ := digits
  obtain _ | ⟨c, text⟩ := text
  · exact absurd rfl hne
  have hc : c.isDigit = true := by
    rw [List.all_cons, Bool.and_eq_true] at hdigit
    exact hdigit.1
  rcases sign with _ | _ | _
  · rw [ExponentText.signText, List.nil_append, List.cons_append]
    unfold readSign
    split
    · rename_i heq
      rw [(List.cons.inj heq).1] at hc
      exact absurd hc (by decide)
    · rename_i heq
      rw [(List.cons.inj heq).1] at hc
      exact absurd hc (by decide)
    · rfl
  · rfl
  · rfl

theorem readExponent_append (exponent : Option ExponentText) (hrest : Stops rest) :
    readExponent ((exponent.map ExponentText.text).getD [] ++ rest) = (exponent, rest) := by
  cases exponent with
  | none =>
    rw [Option.map_none, Option.getD_none, List.nil_append]
    cases rest with
    | nil => rfl
    | cons c rest =>
      have hc := hrest c rfl
      simp only [continues, Bool.or_eq_false_iff, decide_eq_false_iff_not] at hc
      rw [readExponent, if_neg fun h => h.elim hc.1.2 hc.2]
  | some e =>
    obtain ⟨capital, sign, digits⟩ := e
    rw [Option.map_some, Option.getD_some, ExponentText.text, List.cons_append, List.append_assoc,
      readExponent]
    rw [if_pos (by cases capital <;> simp), readSign_append,
      readDigits_append digits hrest.not_isDigit]
    cases capital <;> rfl

/-- Neither a point nor a digit follows a fraction. -/
theorem exponent_head (exponent : Option ExponentText) (hrest : Stops rest) :
    ∀ c ∈ ((exponent.map ExponentText.text).getD [] ++ rest).head?,
      c.isDigit = false ∧ c ≠ '.' := by
  cases exponent with
  | none =>
    intro c hc
    have hcontinues := hrest c hc
    simp only [continues, Bool.or_eq_false_iff, decide_eq_false_iff_not] at hcontinues
    exact ⟨hcontinues.1.1.1, hcontinues.1.1.2⟩
  | some e =>
    obtain ⟨capital, sign, digits⟩ := e
    intro c hc
    rw [Option.map_some, Option.getD_some, ExponentText.text, List.cons_append, List.head?_cons,
      Option.mem_def, Option.some.injEq] at hc
    subst hc
    cases capital <;> exact ⟨rfl, by simp⟩

theorem readFraction_append (fraction : Option DigitText)
    (hrest : ∀ c ∈ rest.head?, c.isDigit = false ∧ c ≠ '.') :
    readFraction (fractionText fraction ++ rest) = (fraction, rest) := by
  cases fraction with
  | none =>
    rw [fractionText, List.nil_append]
    unfold readFraction
    split
    · exact absurd rfl (hrest '.' rfl).2
    · rfl
  | some digits =>
    rw [fractionText, List.cons_append, readFraction,
      readDigits_append digits fun c hc => (hrest c hc).1]

/-- A number that is not zero is written without a zero in front. -/
theorem head?_toDigits {n : ℕ} (h : n ≠ 0) : (Nat.toDigits 10 n).head? ≠ some '0' := by
  induction n using Nat.strong_induction_on with
  | _ n ih =>
    by_cases hn : n < 10
    · rw [Nat.toDigits_of_lt_base hn]
      interval_cases n <;> first | exact absurd rfl h | decide
    · rw [Nat.toDigits_of_base_le (by decide) (by omega), List.head?_append_of_ne_nil]
      · exact ih (n / 10) (by omega) (by omega)
      · exact Nat.toDigits_ne_nil

/-- The digits of a number, as a text of digits. -/
def digitsOf (n : ℕ) : DigitText where
  text := Nat.toDigits 10 n
  ne_nil := Nat.toDigits_ne_nil
  isDigit := List.all_eq_true.2 fun _ hc => isDigit_of_mem_toDigits hc

theorem readWhole_append (n : ℕ) (hrest : ∀ c ∈ rest.head?, c.isDigit = false) :
    readWhole (Nat.toDigits 10 n ++ rest) = some (n, rest) := by
  obtain rfl | hn := eq_or_ne n 0
  · rfl
  have hread := readDigits_append (digitsOf n) hrest
  have hhead : (Nat.toDigits 10 n ++ rest).head? ≠ some '0' := by
    rw [List.head?_append_of_ne_nil _ Nat.toDigits_ne_nil]
    exact head?_toDigits hn
  unfold readWhole
  split
  · rename_i heq
    rw [heq] at hhead
    exact absurd rfl hhead
  · rw [show Nat.toDigits 10 n = (digitsOf n).text from rfl, hread, Option.map_some]
    simp [DigitText.value, digitsOf]

theorem readMinus_append (negative : Bool) (n : ℕ) :
    readMinus ((if negative then ['-'] else []) ++ (Nat.toDigits 10 n ++ rest)) =
      (negative, Nat.toDigits 10 n ++ rest) := by
  cases negative with
  | true => rfl
  | false =>
    rw [if_neg Bool.false_ne_true, List.nil_append]
    obtain ⟨c, text, hdigits⟩ := List.exists_cons_of_ne_nil (Nat.toDigits_ne_nil (b := 10) (n := n))
    have hc : c.isDigit = true :=
      isDigit_of_mem_toDigits (n := n) (hdigits ▸ List.mem_cons_self)
    rw [hdigits, List.cons_append]
    unfold readMinus
    split
    · rename_i heq
      rw [(List.cons.inj heq).1] at hc
      exact absurd hc (by decide)
    · rfl

/-- **A literal is read back from its text.** -/
theorem read_append (l : NumberLiteral) (hrest : Stops rest) :
    read (l.text ++ rest) = some (l, rest) := by
  obtain ⟨negative, whole, fraction, exponent⟩ := l
  have hexponent := exponent_head exponent hrest
  have hfraction : ∀ c ∈ (fractionText fraction ++
      ((exponent.map ExponentText.text).getD [] ++ rest)).head?, c.isDigit = false := by
    cases fraction with
    | none => exact fun c hc => (hexponent c hc).1
    | some digits =>
      rintro c ⟨⟩
      rfl
  rw [text]
  simp only [List.append_assoc]
  rw [read, readMinus_append]
  dsimp only
  rw [readWhole_append whole hfraction, Option.map_some, readFraction_append fraction hexponent]
  dsimp only
  rw [readExponent_append exponent hrest]

/-- A literal starts with a minus or a digit. -/
theorem head_text (l : NumberLiteral) :
    ∃ c text, l.text = c :: text ∧ (c = '-' ∨ c.isDigit = true) := by
  obtain ⟨negative, whole, fraction, exponent⟩ := l
  obtain ⟨d, digits, hdigits⟩ :=
    List.exists_cons_of_ne_nil (Nat.toDigits_ne_nil (b := 10) (n := whole))
  have hd : d.isDigit = true := isDigit_of_mem_toDigits (hdigits ▸ List.mem_cons_self)
  unfold text
  dsimp only
  rw [hdigits, List.cons_append]
  cases negative with
  | true => exact ⟨_, _, rfl, Or.inl rfl⟩
  | false => exact ⟨_, _, rfl, Or.inr hd⟩

end Read

end NumberLiteral

end Lib
