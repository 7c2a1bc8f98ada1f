import CdcFlight.Lib.Quoted
import CdcFlight.Numeric.Variable

/-!
# Texts of ranges

`_encode_range` of `typed_value_codec.py` reads a range from its text, `_render_range_text` writes
one, and `_multirange_parts` splits the text of a multirange. PostgreSQL writes the texts that the
first and the last read: `range_out` puts a bound into double quotes where it has to, and doubles
the quotes and backslashes in it.

A text is the list of its characters.

## Main definitions

* `CdcFlight.encodeRange`, `CdcFlight.renderRangeText`, `CdcFlight.multirangeParts`.
* `CdcFlight.postgresRangeText`, `CdcFlight.postgresMultirangeText`: the texts of PostgreSQL.
* `CdcFlight.PlainBound`: a bound that is read from both texts.

## Main results

* `CdcFlight.readBound_postgresBound_iff`, `CdcFlight.readBound_renderText_iff`: which bounds are
  read from their texts.
* `CdcFlight.rangeTexts_iff`: which ranges are.
-/

namespace CdcFlight

open Lib

/-! ### Reading -/

/-- What a range encodes to. -/
structure EncodedRange (V : Type*) where
  isEmpty : Bool
  lower : Option V
  upper : Option V
  lowerInclusive : Bool
  upperInclusive : Bool
deriving DecidableEq, Repr

/-- A range as it comes in: a mapping of values, or a text. -/
inductive RangeInput (U : Type*)
  | mapping (isEmpty : Bool) (lower upper : Option U) (lowerInclusive upperInclusive : Bool)
  | text (value : List Char)
deriving DecidableEq, Repr

/-- `UnsupportedType` and `InvalidTypedValue`, with their messages. -/
inductive TypedError
  | unsupportedType (message : String)
  | invalidTypedValue (message : String)
deriving DecidableEq, Repr

/-- The subtype of a range, with `encode_value` for it. -/
structure RangeSubtype (U V : Type*) where
  ofText : List Char → U
  encodeValue : U → Except TypedError V

/-- The descriptor of a range type. -/
structure RangeDescriptor (U V : Type*) where
  qualifiedName : String
  rangeSubtype : Option (RangeSubtype U V)

/-- The scanner of `_range_separator`, with `quoted` and `escaped`. -/
def separatorScanner : Scanner (Bool × Bool) Char where
  step
    | (quoted, escaped), char =>
      if escaped then (quoted, false)
      else if char = '\\' then (quoted, true)
      else if char = '"' then (!quoted, false)
      else (quoted, false)
  splits
    | (quoted, escaped), char => !escaped && char = ',' && !quoted

/-- `_range_separator`. -/
def rangeSeparator (value : List Char) : Option ℕ :=
  separatorScanner.firstSplit (false, false) value

/-- `_unquote_range_bound`. -/
def unquoteRangeBound (value : List Char) : List Char :=
  let value :=
    if 2 ≤ value.length ∧ value.head? = some '"' ∧ value.getLast? = some '"' then
      value.tail.dropLast
    else value
  replacePair '\\' '"' '"' (replacePair '\\' '\\' '\\' value)

/-- A bound between the brackets: an empty text is no bound. -/
def readBound (part : List Char) : Option (List Char) :=
  let text := unquoteRangeBound (stripSpace part)
  if text = [] then none else some text

/-- `encode_value` of a bound, if there is one. -/
def encodeBound {U V : Type*} (S : RangeSubtype U V) (bound : Option U) :
    Except TypedError (Option V) :=
  match bound with
  | none => .ok none
  | some value => (S.encodeValue value).map some

/-- The refusal of a text. -/
def notARange : TypedError :=
  .invalidTypedValue "value of type builtins.str is not a PostgreSQL range value"

/-- `_encode_range`, for a descriptor with a subtype. -/
def encodeRangeOf {U V : Type*} (S : RangeSubtype U V) :
    RangeInput U → Except TypedError (EncodedRange V)
  | .mapping isEmpty lower upper lowerInclusive upperInclusive => do
    let lower ← encodeBound S lower
    let upper ← encodeBound S upper
    return { isEmpty, lower, upper, lowerInclusive, upperInclusive }
  | .text value => do
    let text := stripSpace value
    let lowered := text.map Char.toLower
    if lowered = "empty".toList ∨ lowered = "(empty)".toList then
      return ⟨true, none, none, false, false⟩
    if text.length < 2 ∨ ¬(text.head? = some '(' ∨ text.head? = some '[') ∨
        ¬(text.getLast? = some ')' ∨ text.getLast? = some ']') then
      throw notARange
    let inner := text.tail.dropLast
    match rangeSeparator inner with
    | none => throw notARange
    | some comma =>
      let lower ← encodeBound S ((readBound (inner.take comma)).map S.ofText)
      let upper ← encodeBound S ((readBound (inner.drop (comma + 1))).map S.ofText)
      return {
        isEmpty := false, lower, upper
        lowerInclusive := text.head? = some '['
        upperInclusive := text.getLast? = some ']' }

/-- `_encode_range`. -/
def encodeRange {U V : Type*} (source : RangeDescriptor U V) (value : RangeInput U) :
    Except TypedError (EncodedRange V) :=
  match source.rangeSubtype with
  | none => .error (.unsupportedType
      ("range " ++ source.qualifiedName ++ " has no subtype descriptor"))
  | some S => encodeRangeOf S value

/-- The state of `_multirange_parts`. -/
structure PartsState where
  depth : ℤ := 0
  quoted : Bool := false
  escaped : Bool := false
deriving DecidableEq, Repr

/-- The scanner of `_multirange_parts`. -/
def partsScanner : Scanner PartsState Char where
  step s char :=
    if s.escaped then { s with escaped := false }
    else if char = '\\' then { s with escaped := true }
    else if char = '"' then { s with quoted := !s.quoted }
    else if !s.quoted && (char = '(' || char = '[') then { s with depth := s.depth + 1 }
    else if !s.quoted && (char = ')' || char = ']') then { s with depth := s.depth - 1 }
    else s
  splits s char := !s.escaped && !s.quoted && char = ',' && s.depth = 0

/-- `_multirange_parts`. -/
def multirangeParts (value : List Char) : Except TypedError (List (List Char)) :=
  let text := stripSpace value
  let lowered := text.map Char.toLower
  if lowered = "{}".toList ∨ lowered = "{empty}".toList then .ok []
  else if text.length < 2 ∨ text.head? ≠ some '{' ∨ text.getLast? ≠ some '}' then
    .error (.invalidTypedValue "value of type builtins.str is not a PostgreSQL multirange value")
  else .ok (((partsScanner.split {} [] text.tail.dropLast).map stripSpace).filter (· ≠ []))

/-! ### Writing -/

/-- A value of a bound, as the renderer tells them apart. The last holds `str(value)`. -/
inductive BoundScalar
  | decimal (value : PyDecimal)
  | temporal (isoformat : List Char)
  | other (str : List Char)
deriving DecidableEq, Repr

/-- A value of a bound, or a `UnionValue` around one. -/
inductive BoundValue
  | scalar (value : BoundScalar)
  | union (value : BoundScalar)
deriving DecidableEq, Repr

/-- `format(value, "f")`. -/
def formatFixed : PyDecimal → List Char
  | .finite d =>
    (if d.negative then ['-'] else []) ++
      if d.exponent < 0 then DecimalNumber.fixedText (-d.exponent).toNat d.coefficient
      else if d.coefficient = 0 then ['0']
      else Nat.toDigits 10 d.coefficient ++ List.replicate d.exponent.toNat '0'
  | .special .nan => "NaN".toList
  | .special .infinity => "Infinity".toList
  | .special .negativeInfinity => "-Infinity".toList

/-- The text of a scalar. -/
def BoundScalar.text : BoundScalar → List Char
  | .decimal value =>
    let text := formatFixed value
    let text := if '.' ∈ text then DecimalNumber.stripped text else text
    if text = [] then ['0'] else text
  | .temporal isoformat => isoformat
  | .other str => str

/-- The text of a value, without the tag of a union. -/
def BoundValue.text : BoundValue → List Char
  | .scalar value => value.text
  | .union value => value.text

/-- The characters for which the renderer quotes a bound. -/
def renderSpecial (c : Char) : Bool := c ∈ [',', '(', ')', '[', ']', '{', '}', '"', '\\']

/-- The end of `_render_range_bound`: quotes where they are needed. -/
def renderText (text : List Char) : List Char :=
  if text.any renderSpecial ∨ text = [] then
    '"' :: (replaceChar '"' ['\\', '"'] (replaceChar '\\' ['\\', '\\'] text) ++ ['"'])
  else text

/-- `_render_range_bound`. -/
def renderRangeBound : Option BoundValue → List Char
  | none => []
  | some value => renderText value.text

/-- `_render_range_text`. -/
def renderRangeText (value : EncodedRange BoundValue) : List Char :=
  if value.isEmpty then "empty".toList
  else (if value.lowerInclusive then '[' else '(') :: (renderRangeBound value.lower ++
    ',' :: (renderRangeBound value.upper ++ [if value.upperInclusive then ']' else ')']))

/-! ### Ranges of texts, and PostgreSQL -/

/-- A range that is not empty, with its finite bounds. -/
structure TextSpan where
  lower : Option (List Char)
  upper : Option (List Char)
  lowerInclusive : Bool
  upperInclusive : Bool
deriving DecidableEq, Repr

/-- A range whose bounds are texts. -/
inductive TextRange
  | empty
  | span (s : TextSpan)
deriving DecidableEq, Repr

/-- The characters for which PostgreSQL quotes a bound: quotes, backslashes, brackets, commas and
the white space of C. -/
def postgresSpecial (c : Char) : Bool :=
  c ∈ ['"', '\\', '(', ')', '[', ']', ','] || (9 ≤ c.toNat && c.toNat ≤ 13) || c.toNat = 32

/-- `range_bound_escape` of PostgreSQL. -/
def postgresBoundText (text : List Char) : List Char :=
  if text = [] ∨ text.any postgresSpecial then
    '"' :: (escaped '\\' '"' ['"', '"'] text ++ ['"'])
  else text

/-- The text of a range around the texts of its bounds. -/
def TextSpan.write (bound : List Char → List Char) (s : TextSpan) : List Char :=
  (if s.lowerInclusive then '[' else '(') :: ((s.lower.map bound).getD [] ++
    ',' :: ((s.upper.map bound).getD [] ++ [if s.upperInclusive then ']' else ')']))

/-- `range_out` of PostgreSQL. -/
def postgresRangeText : TextRange → List Char
  | .empty => "empty".toList
  | .span s => s.write postgresBoundText

/-- `multirange_out` of PostgreSQL. The ranges of a multirange are not empty. -/
def postgresMultirangeText (ranges : List TextSpan) : List Char :=
  '{' :: ([','].intercalate (ranges.map fun s => postgresRangeText (.span s)) ++ ['}'])

/-- A text as a bound that the renderer gets. -/
def textBound (text : List Char) : BoundValue := .scalar (.other text)

/-- A range of texts as the renderer gets it. -/
def TextRange.encoded : TextRange → EncodedRange BoundValue
  | .empty => ⟨true, none, none, false, false⟩
  | .span s =>
    ⟨false, s.lower.map textBound, s.upper.map textBound, s.lowerInclusive, s.upperInclusive⟩

/-- The text of a multirange that `_render_multirange_parts` joins. -/
def renderMultirangeText (ranges : List TextSpan) : List Char :=
  '{' :: ([','].intercalate (ranges.map fun s => renderRangeText (TextRange.encoded (.span s))) ++
    ['}'])

/-- A subtype that takes every text, and encodes different texts differently, so that what a bound
is read as can be told from what it is encoded to. `text` is such a subtype. -/
structure TextSubtype (U V : Type*) extends RangeSubtype U V where
  value : List Char → V
  value_injective : Function.Injective value
  encodeValue_ofText : ∀ text, encodeValue (ofText text) = .ok (value text)

/-- The range type over it. -/
def TextSubtype.descriptor {U V : Type*} (S : TextSubtype U V) (qualifiedName : String) :
    RangeDescriptor U V :=
  ⟨qualifiedName, some S.toRangeSubtype⟩

/-- The subtype `text`, whose values are the texts. -/
def textSubtype : TextSubtype (List Char) (List Char) where
  ofText := id
  encodeValue := .ok
  value := id
  value_injective := Function.injective_id
  encodeValue_ofText _ := rfl

/-- The range that a text of it should encode to. -/
def TextRange.meaning {V : Type*} (value : List Char → V) : TextRange → EncodedRange V
  | .empty => ⟨true, none, none, false, false⟩
  | .span s => ⟨false, s.lower.map value, s.upper.map value, s.lowerInclusive, s.upperInclusive⟩

/-- A bound that both texts keep: it is not empty, has no quote in it, and starts and ends without
white space unless both texts have it in quotes. -/
def PlainBound (text : List Char) : Prop :=
  text ≠ [] ∧ '"' ∉ text ∧
    (stripSpace text = text ∨ text.any postgresSpecial = true ∧ text.any renderSpecial = true)

instance (text : List Char) : Decidable (PlainBound text) :=
  inferInstanceAs (Decidable (_ ∧ _ ∧ (_ ∨ _ ∧ _)))

/-- All finite bounds of a range are plain. -/
def TextRange.Plain : TextRange → Prop
  | .empty => True
  | .span s => (∀ text ∈ s.lower, PlainBound text) ∧ ∀ text ∈ s.upper, PlainBound text

/-! ### Bounds -/

section Bounds

variable {text part : List Char}

/-- White space is only taken from the ends. -/
theorem stripSpace_enclosed {a b : Char} (ha : isSpace a = false) (hb : isSpace b = false) :
    stripSpace (a :: (text ++ [b])) = a :: (text ++ [b]) := by
  refine stripBy_eq_self ?_ ?_
  · rw [List.head?_cons]
    rintro c ⟨⟩
    exact ha
  · rw [← List.cons_append, List.getLast?_concat]
    rintro c ⟨⟩
    exact hb

/-- A text in quotes is read without them. -/
theorem readBound_quoted : readBound ('"' :: (text ++ ['"'])) =
    if replacePair '\\' '"' '"' (replacePair '\\' '\\' '\\' text) = [] then none
    else some (replacePair '\\' '"' '"' (replacePair '\\' '\\' '\\' text)) := by
  have hlast : ('"' :: (text ++ ['"'])).getLast? = some '"' := by
    rw [← List.cons_append, List.getLast?_concat]
  have hunquote : unquoteRangeBound ('"' :: (text ++ ['"'])) =
      replacePair '\\' '"' '"' (replacePair '\\' '\\' '\\' text) := by
    rw [unquoteRangeBound, if_pos ⟨by simp, rfl, hlast⟩, List.tail_cons, List.dropLast_concat]
  simp only [readBound, stripSpace_enclosed (show isSpace '"' = false from rfl)
    (show isSpace '"' = false from rfl), hunquote]

/-- A text without quotes and backslashes is read without the white space around it. -/
theorem readBound_unquoted (hquote : '"' ∉ part) (hescape : '\\' ∉ part) :
    readBound part = if stripSpace part = [] then none else some (stripSpace part) := by
  have hsub : (stripSpace part).Sublist part := stripBy_sublist
  have hquote' : '"' ∉ stripSpace part := fun h => hquote (hsub.subset h)
  have hescape' : '\\' ∉ stripSpace part := fun h => hescape (hsub.subset h)
  have hunquote : unquoteRangeBound (stripSpace part) = stripSpace part := by
    rw [unquoteRangeBound, if_neg fun h => hquote' (List.mem_of_mem_head? h.2.1),
      replacePair_of_notMem hescape', replacePair_of_notMem hquote']
  simp only [readBound, hunquote]

theorem ite_nil_eq_some_iff {text text' : List Char} :
    (if text' = [] then none else some text') = some text ↔ text' = text ∧ text ≠ [] := by
  split_ifs with h
  · subst h
    simp [eq_comm]
  · rw [Option.some.injEq, iff_self_and]
    rintro rfl
    exact h

/-- **The bounds that are read from the text of PostgreSQL.** -/
theorem readBound_postgresBound_iff : readBound (postgresBoundText text) = some text ↔
    text ≠ [] ∧ '"' ∉ text ∧ (stripSpace text = text ∨ text.any postgresSpecial = true) := by
  rw [postgresBoundText]
  split_ifs with hspecial
  · rw [readBound_quoted, ite_nil_eq_some_iff, replacePair_doubled_iff (by decide), and_comm]
    refine and_congr_right fun hne => (and_iff_left (Or.inr ?_)).symm
    exact hspecial.resolve_left hne
  · rw [not_or] at hspecial
    have hnotMem {c : Char} (hc : postgresSpecial c = true) : c ∉ text := fun hmem =>
      hspecial.2 (List.any_eq_true.2 ⟨c, hmem, hc⟩)
    rw [readBound_unquoted (hnotMem rfl) (hnotMem rfl), ite_nil_eq_some_iff,
      or_iff_left hspecial.2]
    exact ⟨fun h => ⟨h.2, hnotMem rfl, h.1⟩, fun h => ⟨h.2.2, h.1⟩⟩

/-- **The bounds that are read from the text of the renderer.** -/
theorem readBound_renderText_iff : readBound (renderText text) = some text ↔
    text ≠ [] ∧ (stripSpace text = text ∨ text.any renderSpecial = true) := by
  rw [renderText]
  split_ifs with hspecial
  · rw [readBound_quoted, replaceChar_replaceChar (by decide), replacePair_escaped (by decide),
      ite_nil_eq_some_iff]
    exact ⟨fun h => ⟨h.2, Or.inr (hspecial.resolve_right h.2)⟩, fun h => ⟨rfl, h.1⟩⟩
  · rw [not_or] at hspecial
    have hnotMem {c : Char} (hc : renderSpecial c = true) : c ∉ text := fun hmem =>
      hspecial.1 (List.any_eq_true.2 ⟨c, hmem, hc⟩)
    rw [readBound_unquoted (hnotMem rfl) (hnotMem rfl), ite_nil_eq_some_iff,
      or_iff_left hspecial.1]
    exact and_comm

theorem plainBound_iff : PlainBound text ↔ readBound (postgresBoundText text) = some text ∧
    readBound (renderText text) = some text := by
  rw [readBound_postgresBound_iff, readBound_renderText_iff, PlainBound]
  tauto

end Bounds

/-! ### The scanners -/

/-- A way to write bounds that neither scanner splits inside of, wherever the bound stands. -/
structure Enclosed (bound : List Char → List Char) : Prop where
  separator : ∀ text, separatorScanner.pass (false, false) (bound text) = some (false, false)
  parts : ∀ text, partsScanner.pass { depth := 1 } (bound text) = some { depth := 1 }

section Scanners

variable {text : List Char}

theorem separatorScanner_quoted {inner : List Char}
    (h : separatorScanner.pass (true, false) inner = some (true, false)) :
    separatorScanner.pass (false, false) ('"' :: (inner ++ ['"'])) = some (false, false) := by
  rw [Scanner.pass_cons rfl, Scanner.pass_append]
  change (separatorScanner.pass (true, false) inner).bind _ = _
  rw [h]
  rfl

theorem partsScanner_quoted {inner : List Char}
    (h : partsScanner.pass { depth := 1, quoted := true } inner =
      some { depth := 1, quoted := true }) :
    partsScanner.pass { depth := 1 } ('"' :: (inner ++ ['"'])) = some { depth := 1 } := by
  rw [Scanner.pass_cons rfl, Scanner.pass_append]
  change (partsScanner.pass { depth := 1, quoted := true } inner).bind _ = _
  rw [h]
  rfl

/-- Inside of quotes, an escaped character leaves the state of a scanner as it is. -/
theorem separatorScanner_escaped {quote : List Char}
    (hquote : quote = ['\\', '"'] ∨ quote = ['"', '"']) :
    separatorScanner.pass (true, false) (escaped '\\' '"' quote text) = some (true, false) := by
  refine Scanner.pass_flatMap fun c _ => ?_
  split_ifs with he hq
  · rfl
  · rcases hquote with rfl | rfl <;> rfl
  · simp [Scanner.pass, separatorScanner, he, hq]

theorem partsScanner_escaped {quote : List Char}
    (hquote : quote = ['\\', '"'] ∨ quote = ['"', '"']) :
    partsScanner.pass { depth := 1, quoted := true } (escaped '\\' '"' quote text) =
      some { depth := 1, quoted := true } := by
  refine Scanner.pass_flatMap fun c _ => ?_
  split_ifs with he hq
  · rfl
  · rcases hquote with rfl | rfl <;> rfl
  · simp [Scanner.pass, partsScanner, he, hq]

/-- The characters the scanners look for. -/
def scanned : List Char := [',', '(', ')', '[', ']', '"', '\\']

/-- A text without them leaves the state as it is. -/
theorem separatorScanner_plain (h : ∀ c ∈ text, c ∉ scanned) :
    separatorScanner.pass (false, false) text = some (false, false) := by
  refine Scanner.pass_of_forall fun c hc => ?_
  have hc' := h c hc
  simp only [scanned, List.mem_cons, List.not_mem_nil, or_false, not_or] at hc'
  simp [separatorScanner, hc']

theorem partsScanner_plain (h : ∀ c ∈ text, c ∉ scanned) :
    partsScanner.pass { depth := 1 } text = some { depth := 1 } := by
  refine Scanner.pass_of_forall fun c hc => ?_
  have hc' := h c hc
  simp only [scanned, List.mem_cons, List.not_mem_nil, or_false, not_or] at hc'
  simp [partsScanner, hc']

theorem enclosed_postgresBoundText : Enclosed postgresBoundText := by
  have hplain {text : List Char} (h : ¬(text = [] ∨ text.any postgresSpecial = true)) :
      ∀ c ∈ text, c ∉ scanned := by
    rw [not_or, List.any_eq_true, not_exists] at h
    intro c hc hmem
    refine h.2 c ⟨hc, ?_⟩
    fin_cases hmem <;> rfl
  constructor
  · intro text
    rw [postgresBoundText]
    split_ifs with h
    · exact separatorScanner_quoted (separatorScanner_escaped (Or.inr rfl))
    · exact separatorScanner_plain (hplain h)
  · intro text
    rw [postgresBoundText]
    split_ifs with h
    · exact partsScanner_quoted (partsScanner_escaped (Or.inr rfl))
    · exact partsScanner_plain (hplain h)

theorem enclosed_renderText : Enclosed renderText := by
  have hplain {text : List Char} (h : ¬(text.any renderSpecial = true ∨ text = [])) :
      ∀ c ∈ text, c ∉ scanned := by
    rw [not_or, List.any_eq_true, not_exists] at h
    intro c hc hmem
    refine h.1 c ⟨hc, ?_⟩
    fin_cases hmem <;> rfl
  constructor
  · intro text
    rw [renderText, replaceChar_replaceChar (by decide)]
    split_ifs with h
    · exact separatorScanner_quoted (separatorScanner_escaped (Or.inl rfl))
    · exact separatorScanner_plain (hplain h)
  · intro text
    rw [renderText, replaceChar_replaceChar (by decide)]
    split_ifs with h
    · exact partsScanner_quoted (partsScanner_escaped (Or.inl rfl))
    · exact partsScanner_plain (hplain h)

end Scanners

/-! ### Ranges -/

section Ranges

variable {U V : Type*} {S : TextSubtype U V} {name : String} {bound : List Char → List Char}
  {s : TextSpan}

/-- The text of a range without its brackets. -/
def TextSpan.inner (bound : List Char → List Char) (s : TextSpan) : List Char :=
  (s.lower.map bound).getD [] ++ ',' :: (s.upper.map bound).getD []

theorem TextSpan.write_eq : s.write bound = (if s.lowerInclusive then '[' else '(') ::
    (s.inner bound ++ [if s.upperInclusive then ']' else ')']) := by
  rw [TextSpan.write, TextSpan.inner, List.append_assoc, List.cons_append]

theorem TextSpan.comma_mem_write : ',' ∈ s.write bound := by
  simp [TextSpan.write]

theorem TextSpan.stripSpace_write : stripSpace (s.write bound) = s.write bound := by
  rw [write_eq]
  refine stripSpace_enclosed ?_ ?_
  · split_ifs <;> rfl
  · split_ifs <;> rfl

/-- A text with a comma is none of the words for nothing. -/
theorem lowered_ne {text word : List Char} (hcomma : ',' ∈ text) (hword : ',' ∉ word) :
    text.map Char.toLower ≠ word := by
  rintro rfl
  exact hword (List.mem_map.2 ⟨',', hcomma, rfl⟩)

/-- A finite bound passes, and so does the missing one. -/
theorem Enclosed.pass_bound (h : Enclosed bound) (text : Option (List Char)) :
    separatorScanner.pass (false, false) ((text.map bound).getD []) = some (false, false) ∧
      partsScanner.pass { depth := 1 } ((text.map bound).getD []) = some { depth := 1 } := by
  cases text with
  | none => exact ⟨rfl, rfl⟩
  | some text => exact ⟨h.separator text, h.parts text⟩

/-- The separator of a range is the comma between its bounds. -/
theorem Enclosed.rangeSeparator (h : Enclosed bound) :
    rangeSeparator (s.inner bound) = some ((s.lower.map bound).getD []).length :=
  Scanner.firstSplit_of_pass (h.pass_bound s.lower).1 rfl

theorem encodeBound_ofText (text : Option (List Char)) :
    encodeBound S.toRangeSubtype (text.map S.ofText) = .ok (text.map S.value) := by
  cases text with
  | none => rfl
  | some text =>
    rw [Option.map_some, encodeBound, S.encodeValue_ofText]
    rfl

/-- A missing bound is read as missing. -/
theorem readBound_getD (text : Option (List Char)) :
    readBound ((text.map bound).getD []) = text.bind fun text => readBound (bound text) := by
  cases text <;> rfl

/-- **What the text of a range encodes to.** -/
theorem Enclosed.encodeRange_write (h : Enclosed bound) :
    encodeRange (S.descriptor name) (.text (s.write bound)) = .ok
      { isEmpty := false
        lower := (s.lower.bind fun text => readBound (bound text)).map S.value
        upper := (s.upper.bind fun text => readBound (bound text)).map S.value
        lowerInclusive := s.lowerInclusive
        upperInclusive := s.upperInclusive } := by
  have hhead : (s.write bound).head? = some (if s.lowerInclusive then '[' else '(') := by
    rw [TextSpan.write_eq, List.head?_cons]
  have hlast : (s.write bound).getLast? = some (if s.upperInclusive then ']' else ')') := by
    rw [TextSpan.write_eq, ← List.cons_append, List.getLast?_concat]
  have hinner : (s.write bound).tail.dropLast = s.inner bound := by
    rw [TextSpan.write_eq, List.tail_cons, List.dropLast_concat]
  have hlength : ¬(s.write bound).length < 2 := by
    simp [TextSpan.write_eq]
  have hword (word : List Char) (hmem : ',' ∉ word) :
      ¬(s.write bound).map Char.toLower = word := lowered_ne TextSpan.comma_mem_write hmem
  have hends : ¬((s.write bound).length < 2 ∨
      ¬((s.write bound).head? = some '(' ∨ (s.write bound).head? = some '[') ∨
      ¬((s.write bound).getLast? = some ')' ∨ (s.write bound).getLast? = some ']')) := by
    rw [hhead, hlast]
    cases s.lowerInclusive <;> cases s.upperInclusive <;> simpa using hlength
  rw [hhead, hlast] at hends
  have htake : (s.inner bound).take ((s.lower.map bound).getD []).length =
      (s.lower.map bound).getD [] := List.take_left
  have hdrop : (s.inner bound).drop (((s.lower.map bound).getD []).length + 1) =
      (s.upper.map bound).getD [] := by
    rw [TextSpan.inner, ← List.singleton_append, ← List.append_assoc, List.drop_left']
    simp
  rw [encodeRange]
  simp only [TextSubtype.descriptor, encodeRangeOf, TextSpan.stripSpace_write,
    hword "empty".toList (by decide), hword "(empty)".toList (by decide), or_self, if_false,
    hhead, hlast, hends, hinner, h.rangeSeparator, htake, hdrop, readBound_getD,
    encodeBound_ofText]
  cases s.lowerInclusive <;> cases s.upperInclusive <;> rfl

/-- A range is read as it is exactly when its finite bounds are. -/
theorem Enclosed.encodeRange_write_iff (h : Enclosed bound) :
    encodeRange (S.descriptor name) (.text (s.write bound)) =
        .ok ((TextRange.span s).meaning S.value) ↔
      (∀ text ∈ s.lower, readBound (bound text) = some text) ∧
        ∀ text ∈ s.upper, readBound (bound text) = some text := by
  have hbound (text : Option (List Char)) :
      (text.bind fun text => readBound (bound text)).map S.value = text.map S.value ↔
        ∀ text' ∈ text, readBound (bound text') = some text' := by
    rw [(Option.map_injective S.value_injective).eq_iff]
    cases text with
    | none => simp
    | some text => simp
  rw [h.encodeRange_write, TextRange.meaning, Except.ok.injEq, EncodedRange.mk.injEq, hbound,
    hbound]
  simp

end Ranges

/-! ### Multiranges -/

section Multiranges

variable {bound : List Char → List Char} {ranges : List TextSpan}

/-- The text of a range leaves the scanner of a multirange as it is. -/
theorem Enclosed.pass_write (h : Enclosed bound) (s : TextSpan) :
    partsScanner.pass {} (s.write bound) = some {} := by
  have hopen (text : List Char) : partsScanner.pass {}
      ((if s.lowerInclusive then '[' else '(') :: text) =
        partsScanner.pass { depth := 1 } text := by
    cases s.lowerInclusive <;> exact Scanner.pass_cons rfl
  have hcomma (text : List Char) : partsScanner.pass { depth := 1 } (',' :: text) =
      partsScanner.pass { depth := 1 } text := Scanner.pass_cons rfl
  rw [TextSpan.write, hopen, Scanner.pass_append, (h.pass_bound s.lower).2, Option.bind_some,
    hcomma, Scanner.pass_append, (h.pass_bound s.upper).2, Option.bind_some]
  cases s.upperInclusive <;> rfl

/-- **A multirange is split into the texts of its ranges**, whatever their bounds are. -/
theorem Enclosed.multirangeParts (h : Enclosed bound) :
    multirangeParts ('{' :: ([','].intercalate (ranges.map (·.write bound)) ++ ['}'])) =
      .ok (ranges.map (·.write bound)) := by
  obtain rfl | hne := eq_or_ne ranges []
  · rfl
  have hlast : ('{' :: ([','].intercalate (ranges.map (·.write bound)) ++ ['}'])).getLast? =
      some '}' := by
    rw [← List.cons_append, List.getLast?_concat]
  have hcomma : ',' ∈ '{' :: ([','].intercalate (ranges.map (·.write bound)) ++ ['}']) := by
    obtain _ | ⟨s, _ | ⟨s', ranges⟩⟩ := ranges
    · exact absurd rfl hne
    · simpa using TextSpan.comma_mem_write
    · simp
  have hsplit : partsScanner.split {} [] ([','].intercalate (ranges.map (·.write bound))) =
      ranges.map (·.write bound) := by
    refine Scanner.split_intercalate ?_ rfl rfl (List.map_eq_nil_iff.not.2 hne)
    rintro _ hx
    obtain ⟨s, -, rfl⟩ := List.mem_map.1 hx
    exact h.pass_write s
  have hstrip : (ranges.map (·.write bound)).map stripSpace = ranges.map (·.write bound) := by
    rw [List.map_map]
    exact List.map_congr_left fun s _ => TextSpan.stripSpace_write
  have hfilter : (ranges.map (·.write bound)).filter (· ≠ []) = ranges.map (·.write bound) := by
    refine List.filter_eq_self.2 fun x hx => ?_
    obtain ⟨s, -, rfl⟩ := List.mem_map.1 hx
    rw [decide_eq_true_eq]
    exact List.cons_ne_nil _ _
  rw [CdcFlight.multirangeParts]
  simp only [stripSpace_enclosed (show isSpace '{' = false from rfl)
    (show isSpace '}' = false from rfl), lowered_ne hcomma (show ',' ∉ "{}".toList by decide),
    lowered_ne hcomma (show ',' ∉ "{empty}".toList by decide), or_self, if_false, hlast,
    List.head?_cons, List.tail_cons, List.dropLast_concat, hsplit, hstrip, hfilter]
  simp

end Multiranges

theorem renderRangeText_encoded (s : TextSpan) :
    renderRangeText (TextRange.encoded (.span s)) = s.write renderText := by
  obtain ⟨lower, upper, lowerInclusive, upperInclusive⟩ := s
  cases lower <;> cases upper <;> rfl

/-- **The ranges that are read from their texts.** The texts of a multirange are always found in
its text. -/
theorem rangeTexts_iff {U V : Type*} (S : TextSubtype U V) (name : String) (r : TextRange)
    (ranges : List TextSpan) :
    (encodeRange (S.descriptor name) (.text (postgresRangeText r)) = .ok (r.meaning S.value) ∧
      encodeRange (S.descriptor name) (.text (renderRangeText r.encoded)) =
        .ok (r.meaning S.value) ∧
      multirangeParts (postgresMultirangeText ranges) =
        .ok (ranges.map fun s => postgresRangeText (.span s)) ∧
      multirangeParts (renderMultirangeText ranges) =
        .ok (ranges.map fun s => renderRangeText (TextRange.encoded (.span s)))) ↔
    r.Plain := by
  have hparts : multirangeParts (postgresMultirangeText ranges) =
      .ok (ranges.map fun s => postgresRangeText (.span s)) :=
    enclosed_postgresBoundText.multirangeParts
  have hparts' : multirangeParts (renderMultirangeText ranges) =
      .ok (ranges.map fun s => renderRangeText (TextRange.encoded (.span s))) := by
    rw [renderMultirangeText]
    simp only [renderRangeText_encoded]
    exact enclosed_renderText.multirangeParts
  rw [and_iff_left hparts', and_iff_left hparts]
  cases r with
  | empty => exact iff_of_true ⟨rfl, rfl⟩ trivial
  | span s =>
    rw [renderRangeText_encoded, postgresRangeText,
      enclosed_postgresBoundText.encodeRange_write_iff, enclosed_renderText.encodeRange_write_iff,
      TextRange.Plain]
    simp only [plainBound_iff]
    constructor
    · rintro ⟨⟨hlower, hupper⟩, hlower', hupper'⟩
      exact ⟨fun text h => ⟨hlower text h, hlower' text h⟩,
        fun text h => ⟨hupper text h, hupper' text h⟩⟩
    · rintro ⟨hlower, hupper⟩
      exact ⟨⟨fun text h => (hlower text h).1, fun text h => (hupper text h).1⟩,
        fun text h => (hlower text h).2, fun text h => (hupper text h).2⟩

namespace Accounts

/-- The range of the texts from `5" disk` on. -/
def diskRange : TextRange := .span ⟨some ['5', '"', ' ', 'd', 'i', 's', 'k'], none, true, false⟩

/-- PostgreSQL doubles the quote, and it is read as two. -/
theorem encodeRange_diskRange :
    encodeRange (textSubtype.descriptor "app.namerange") (.text (postgresRangeText diskRange)) =
        .ok ⟨false, some ['5', '"', '"', ' ', 'd', 'i', 's', 'k'], none, true, false⟩ ∧
      encodeRange (textSubtype.descriptor "app.namerange") (.text (postgresRangeText diskRange)) ≠
        .ok (diskRange.meaning textSubtype.value) := by
  decide

end Accounts

end CdcFlight
