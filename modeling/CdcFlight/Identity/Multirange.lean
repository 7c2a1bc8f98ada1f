import CdcFlight.Identity.CanonicalJson
import CdcFlight.Lib.Checks
import CdcFlight.Lib.CivilDate
import CdcFlight.Lib.Spans
import CdcFlight.Typed.RangeText

/-!
# Identities of multiranges

`_multirange_identity` of `identity_codec.py` normalises encoded ranges, drops the empty ones, sorts
and merges the others, and writes the identities of their bounds. The bounds of integer and date
ranges are first brought to the half-open form; what the functions use of a subtype is a step, a
comparison and the identity of a value.

A numeric bound is a coefficient and a scale, and both its comparison and its identity go through
`Decimal.scaleb`, which rounds to the digits of the default context. The points of a range are
integers or, where the subtype is continuous, all rational numbers.

## Main definitions

* `CdcFlight.BoundType`, `CdcFlight.normaliseRange`, `CdcFlight.mergeRanges`,
  `CdcFlight.multirangeIdentity`.
* `CdcFlight.LawfulBoundType`: what the proofs use of a subtype.
* `CdcFlight.RangeType`: the ranges over int4, int8, date, numeric and timestamp.

## Main results

* `CdcFlight.span_mergeRanges`: the merge is that of spans.
* `CdcFlight.LawfulBoundType.separated_normalForm`: the merged ranges are non-empty and not adjacent
  in the points of the type.
* `CdcFlight.RangeType.multirangeIdentity_iff`: which multiranges keep their points.
* `CdcFlight.RangeType.exactRanges_daterange`, `CdcFlight.RangeType.exactRanges_tsrange`,
  `CdcFlight.RangeType.exactRanges_numrange`: dates, timestamps and numerics with few digits do.
-/

namespace CdcFlight

open Lib

/-! ### Ranges -/

/-- The identity of a bound. -/
inductive BoundIdentity
  | unbounded
  | infinity (positive : Bool)
  | integer (text : String)
  | date (text : List Char)
  | timestamp (text : List Char)
  | numeric (text : List Char)
deriving DecidableEq

/-- The identity of a range. -/
inductive RangeIdentity
  | empty
  | bounds (lower : BoundIdentity) (lowerInclusive : Bool) (upper : BoundIdentity)
    (upperInclusive : Bool)
deriving DecidableEq

/-- What is used of the subtype of a range: whether `_range_discrete` holds of the range,
`_range_step`, `_range_compare` and `_identity_tree`. -/
structure BoundType (V : Type) where
  discrete : Bool
  step : V → V
  compare : V → V → Ordering
  identity : V → Except String BoundIdentity

/-- What `_normalise_range` returns of a range that is not empty. -/
structure NormalRange (V : Type) where
  lower : Option V
  upper : Option V
  lowerInclusive : Bool
  upperInclusive : Bool
deriving DecidableEq

section Functions

variable {V : Type} (B : BoundType V)

/-- A lower bound as `_normalise_range` brings it to the half-open form, where there is one. -/
def halfOpenLower (lower : Option V) (inclusive : Bool) : Option V × Bool :=
  match lower with
  | none => (none, false)
  | some v =>
    if B.discrete then (some (if inclusive then v else B.step v), true) else (some v, inclusive)

/-- An upper bound. -/
def halfOpenUpper (upper : Option V) (inclusive : Bool) : Option V × Bool :=
  match upper with
  | none => (none, false)
  | some v =>
    if B.discrete then (some (if inclusive then B.step v else v), false) else (some v, inclusive)

/-- The bounds of a range before `_normalise_range` compares them. -/
def halfOpen (value : EncodedRange V) : NormalRange V where
  lower := (halfOpenLower B value.lower value.lowerInclusive).1
  upper := (halfOpenUpper B value.upper value.upperInclusive).1
  lowerInclusive := (halfOpenLower B value.lower value.lowerInclusive).2
  upperInclusive := (halfOpenUpper B value.upper value.upperInclusive).2

/-- `_normalise_range`; `none` is an empty range. -/
def normaliseRange (value : EncodedRange V) : Option (NormalRange V) :=
  if value.isEmpty then none
  else
    let normal := halfOpen B value
    match normal.lower, normal.upper with
    | some lower, some upper =>
      match B.compare lower upper with
      | .gt => none
      | .eq => if normal.lowerInclusive && normal.upperInclusive then some normal else none
      | .lt => some normal
    | _, _ => some normal

/-- `_ranges_mergeable`. -/
def rangesMergeable (left right : NormalRange V) : Bool :=
  match left.upper, right.lower with
  | some upper, some lower =>
    match B.compare upper lower with
    | .gt => true
    | .lt => false
    | .eq => B.discrete || left.upperInclusive || right.lowerInclusive
  | _, _ => true

/-- The comparison of `_merge_ranges`. -/
def compareLower (left right : NormalRange V) : Ordering :=
  let order : Ordering :=
    match left.lower, right.lower with
    | none, none => .eq
    | none, some _ => .lt
    | some _, none => .gt
    | some l, some r => B.compare l r
  order.then
    (if left.lowerInclusive ≠ right.lowerInclusive then
      if left.lowerInclusive then .lt else .gt
    else .eq)

/-- `previous` with what `current` adds to it. -/
def extendRange (previous current : NormalRange V) : NormalRange V :=
  match previous.upper, current.upper with
  | some p, some c =>
    match B.compare p c with
    | .lt => { previous with
        upper := current.upper
        upperInclusive := current.upperInclusive }
    | .eq => { previous with upperInclusive := previous.upperInclusive || current.upperInclusive }
    | .gt => previous
  | _, _ => { previous with
      upper := none
      upperInclusive := false }

/-- The loop of `_merge_ranges`; the last of `merged` stands first. -/
def mergeInto : List (NormalRange V) → NormalRange V → List (NormalRange V)
  | [], current => [current]
  | previous :: merged, current =>
    if rangesMergeable B previous current then extendRange B previous current :: merged
    else current :: previous :: merged

/-- `_merge_ranges`. -/
def mergeRanges (ranges : List (NormalRange V)) : List (NormalRange V) :=
  ((ranges.mergeSort fun left right => compareLower B left right ≠ .gt).foldl
    (mergeInto B) []).reverse

/-- `_range_bound_identity`. -/
def rangeBoundIdentity : Option V → Except String BoundIdentity
  | none => .ok .unbounded
  | some value => B.identity value

/-- The identity of a range that is not empty. -/
def normalIdentity (normal : NormalRange V) : Except String RangeIdentity := do
  let lower ← rangeBoundIdentity B normal.lower
  let upper ← rangeBoundIdentity B normal.upper
  return .bounds lower normal.lowerInclusive upper normal.upperInclusive

/-- `_range_identity`. -/
def rangeIdentity (value : EncodedRange V) : Except String RangeIdentity :=
  match normaliseRange B value with
  | none => .ok .empty
  | some normal => normalIdentity B normal

/-- A normalised range where an encoded one is expected. -/
def NormalRange.encoded (normal : NormalRange V) : EncodedRange V where
  isEmpty := false
  lower := normal.lower
  upper := normal.upper
  lowerInclusive := normal.lowerInclusive
  upperInclusive := normal.upperInclusive

/-- The ranges whose identities `_multirange_identity` lists. -/
def mergedRanges (value : List (EncodedRange V)) : List (EncodedRange V) :=
  (mergeRanges B (value.filterMap (normaliseRange B))).map NormalRange.encoded

/-- `_multirange_identity`. -/
def multirangeIdentity (value : List (EncodedRange V)) : Except String (List RangeIdentity) :=
  (mergedRanges B value).mapM (rangeIdentity B)

end Functions

/-! ### Subtypes -/

/-- The time of a naive datetime in microseconds. -/
def PyDatetime.microseconds (t : PyDatetime) : ℕ :=
  (((t.date.toOrdinal * 24 + t.hour) * 60 + t.minute) * 60 + t.second) * 1000000 + t.microsecond

/-- `datetime.isoformat`, of a naive datetime. -/
def PyDatetime.isoformat (t : PyDatetime) : List Char :=
  t.date.isoformat ++ 'T' :: (zeroPadded 2 t.hour ++ ':' :: (zeroPadded 2 t.minute ++
    ':' :: (zeroPadded 2 t.second ++
      if t.microsecond.val = 0 then [] else '.' :: zeroPadded 6 t.microsecond)))

/-- A bound of a date range, or `_RangeInfinity`. -/
inductive DateBound
  | date (d : CivilDate)
  | infinity (positive : Bool)
deriving DecidableEq

/-- An encoded numeric that is finite. -/
structure ScaledNumeric where
  coefficient : ℤ
  scale : ℤ
deriving DecidableEq, Repr

/-- The integers from `least` to `last`, under the name of their kind. -/
def intBounds (kind : String) (least last : ℤ) : BoundType ℤ where
  discrete := true
  step n := n + 1
  compare n m := cmp n m
  identity n :=
    if least ≤ n ∧ n ≤ last then .ok (.integer (toString n))
    else .error (toString n ++ " is outside " ++ kind ++ " range")

/-- Where a date bound stands. -/
def DateBound.ordinal : DateBound → ℕ
  | .date d => d.toOrdinal
  | .infinity true => CivilDate.maxOrdinal + 1
  | .infinity false => 0

/-- `value + timedelta(days=1)`, and the positive infinity past the last date. -/
def DateBound.step : DateBound → DateBound
  | .date d => (d.next.map DateBound.date).getD (.infinity true)
  | .infinity positive => .infinity positive

/-- `_range_compare`, of dates. -/
def DateBound.compare : DateBound → DateBound → Ordering
  | .infinity p, .infinity q => cmp p q
  | .infinity p, .date _ => if p then .gt else .lt
  | .date _, .infinity q => if q then .lt else .gt
  | .date d, .date d' => cmp d.toOrdinal d'.toOrdinal

def dateBounds : BoundType DateBound where
  discrete := true
  step := DateBound.step
  compare := DateBound.compare
  identity
    | .date d => .ok (.date d.isoformat)
    | .infinity positive => .ok (.infinity positive)

/-- `_range_order_value`, of an encoded numeric. -/
def ScaledNumeric.rounded (x : ScaledNumeric) : DecimalNumber := rescaled x.coefficient x.scale

def numericBounds : BoundType ScaledNumeric where
  discrete := false
  step := id
  compare x y := cmp x.rounded.value y.rounded.value
  identity x := .ok (.numeric (canonicalDecimalText x.rounded))

def timestampBounds : BoundType PyDatetime where
  discrete := false
  step := id
  compare t t' := cmp t.microseconds t'.microseconds
  identity t := .ok (.timestamp t.isoformat)

/-- The range types. -/
inductive RangeType
  | int4range
  | int8range
  | daterange
  | numrange
  | tsrange
deriving DecidableEq, Repr

namespace RangeType

/-- The encoded values of the subtype. -/
def Value : RangeType → Type
  | int4range => ℤ
  | int8range => ℤ
  | daterange => DateBound
  | numrange => ScaledNumeric
  | tsrange => PyDatetime

def bounds : (T : RangeType) → BoundType T.Value
  | int4range => intBounds "int4" (-2 ^ 31) (2 ^ 31 - 1)
  | int8range => intBounds "int8" (-2 ^ 63) (2 ^ 63 - 1)
  | daterange => dateBounds
  | numrange => numericBounds
  | tsrange => timestampBounds

end RangeType

/-! ### Points -/

/-- What an identity says of a bound. -/
def BoundIdentity.Denotes : BoundIdentity → ℚ → Prop
  | .unbounded, _ => False
  | .infinity positive, q => q = if positive then CivilDate.maxOrdinal + 1 else 0
  | .integer text, q => ∃ n : ℤ, text = toString n ∧ q = n
  | .date text, q => ∃ d : CivilDate, text = d.isoformat ∧ q = d.toOrdinal
  | .timestamp text, q => ∃ t : PyDatetime, text = t.isoformat ∧ q = t.microseconds
  | .numeric text, q => ∃ d : DecimalNumber, text = d.plainText ∧ q = d.value

/-- The cut of a lower bound. -/
def lowerCut (inclusive : Bool) (q : ℚ) : Cut ℚ := if inclusive then .before q else .after q

/-- The cut of an upper bound. -/
def upperCut (inclusive : Bool) (q : ℚ) : Cut ℚ := if inclusive then .after q else .before q

/-- What an identity says of a range. -/
def RangeIdentity.Denotes : RangeIdentity → Span (Cut ℚ) → Prop
  | .empty, _ => False
  | .bounds lower lowerInclusive upper upperInclusive, s =>
    (lower = .unbounded ∧ s.lo = ⊥ ∨ ∃ q, lower.Denotes q ∧ s.lo = lowerCut lowerInclusive q) ∧
      (upper = .unbounded ∧ s.hi = ⊤ ∨ ∃ q, upper.Denotes q ∧ s.hi = upperCut upperInclusive q)

theorem lowerCut_inj {i j : Bool} {q r : ℚ} (h : lowerCut i q = lowerCut j r) : i = j ∧ q = r := by
  cases i <;> cases j <;> simp_all [lowerCut, Cut.before, Cut.after]

theorem upperCut_inj {i j : Bool} {q r : ℚ} (h : upperCut i q = upperCut j r) : i = j ∧ q = r := by
  cases i <;> cases j <;> simp_all [upperCut, Cut.before, Cut.after]

theorem lowerCut_ne_bot (i : Bool) (q : ℚ) : lowerCut i q ≠ ⊥ := by
  cases i
  · exact Cut.bot_lt_after.ne'
  · exact Cut.bot_lt_before.ne'

theorem upperCut_ne_top (i : Bool) (q : ℚ) : upperCut i q ≠ ⊤ := by
  cases i
  · exact Cut.before_lt_top.ne
  · exact Cut.after_lt_top.ne

theorem PyDatetime.microseconds_injective : Function.Injective PyDatetime.microseconds := by
  intro t t' h
  have hhour := t.hour.isLt
  have hminute := t.minute.isLt
  have hsecond := t.second.isLt
  have hmicrosecond := t.microsecond.isLt
  have hhour' := t'.hour.isLt
  have hminute' := t'.minute.isLt
  have hsecond' := t'.second.isLt
  have hmicrosecond' := t'.microsecond.isLt
  unfold microseconds at h
  exact PyDatetime.ext (CivilDate.toOrdinal_injective (by omega)) (Fin.ext (by omega))
    (Fin.ext (by omega)) (Fin.ext (by omega)) (Fin.ext (by omega))

theorem PyDatetime.isoformat_injective : Function.Injective PyDatetime.isoformat := by
  intro t t' h
  have htwo : 0 < 2 := by norm_num
  have hlength (n n' : ℕ) (hn : n < 10 ^ 2) (hn' : n' < 10 ^ 2) :
      (zeroPadded 2 n).length = (zeroPadded 2 n').length := by
    rw [length_zeroPadded htwo hn, length_zeroPadded htwo hn']
  have hhour (t : PyDatetime) : (t.hour : ℕ) < 10 ^ 2 := by omega
  have hminute (t : PyDatetime) : (t.minute : ℕ) < 10 ^ 2 := by omega
  have hsecond (t : PyDatetime) : (t.second : ℕ) < 10 ^ 2 := by omega
  have hmicrosecond (t : PyDatetime) : (t.microsecond : ℕ) < 10 ^ 6 := by omega
  obtain ⟨hd, h⟩ := List.append_inj h
    (by rw [CivilDate.length_isoformat, CivilDate.length_isoformat])
  obtain ⟨hh, h⟩ := List.append_inj (List.cons.inj h).2 (hlength _ _ (hhour t) (hhour t'))
  obtain ⟨hm, h⟩ := List.append_inj (List.cons.inj h).2 (hlength _ _ (hminute t) (hminute t'))
  obtain ⟨hs, h⟩ := List.append_inj (List.cons.inj h).2 (hlength _ _ (hsecond t) (hsecond t'))
  refine PyDatetime.ext (CivilDate.isoformat_injective hd)
    (Fin.ext (zeroPadded_inj htwo (hhour t) (hhour t') hh))
    (Fin.ext (zeroPadded_inj htwo (hminute t) (hminute t') hm))
    (Fin.ext (zeroPadded_inj htwo (hsecond t) (hsecond t') hs)) (Fin.ext ?_)
  split_ifs at h with hzero hzero'
  · rw [hzero, hzero']
  · exact zeroPadded_inj (by norm_num) (hmicrosecond t) (hmicrosecond t') (List.cons.inj h).2

/-- A bound has one value. -/
theorem BoundIdentity.Denotes.eq {i : BoundIdentity} {q r : ℚ} (hq : i.Denotes q)
    (hr : i.Denotes r) : q = r := by
  cases i with
  | unbounded => exact hq.elim
  | infinity positive => exact Eq.trans hq (Eq.symm hr)
  | integer text =>
    obtain ⟨n, htext, rfl⟩ := hq
    obtain ⟨m, htext', rfl⟩ := hr
    rw [toString_int_inj (htext.symm.trans htext')]
  | date text =>
    obtain ⟨d, htext, rfl⟩ := hq
    obtain ⟨d', htext', rfl⟩ := hr
    rw [CivilDate.isoformat_injective (htext.symm.trans htext')]
  | timestamp text =>
    obtain ⟨t, htext, rfl⟩ := hq
    obtain ⟨t', htext', rfl⟩ := hr
    rw [PyDatetime.isoformat_injective (htext.symm.trans htext')]
  | numeric text =>
    obtain ⟨d, htext, rfl⟩ := hq
    obtain ⟨d', htext', rfl⟩ := hr
    exact DecimalNumber.plainText_eq_iff.1 (htext.symm.trans htext')

/-- An identity is that of one span. -/
theorem RangeIdentity.Denotes.eq {id : RangeIdentity} {s t : Span (Cut ℚ)} (hs : id.Denotes s)
    (ht : id.Denotes t) : s = t := by
  cases id with
  | empty => exact hs.elim
  | bounds lower lowerInclusive upper upperInclusive =>
    obtain ⟨hslo, hshi⟩ := hs
    obtain ⟨htlo, hthi⟩ := ht
    refine Span.ext ?_ ?_
    · rcases hslo with ⟨rfl, hs⟩ | ⟨q, hq, hs⟩
      · rcases htlo with ⟨-, ht⟩ | ⟨r, hr, -⟩
        · rw [hs, ht]
        · exact hr.elim
      · rcases htlo with ⟨rfl, -⟩ | ⟨r, hr, ht⟩
        · exact hq.elim
        · rw [hs, ht, hq.eq hr]
    · rcases hshi with ⟨rfl, hs⟩ | ⟨q, hq, hs⟩
      · rcases hthi with ⟨-, ht⟩ | ⟨r, hr, -⟩
        · rw [hs, ht]
        · exact hr.elim
      · rcases hthi with ⟨rfl, -⟩ | ⟨r, hr, ht⟩
        · exact hq.elim
        · rw [hs, ht, hq.eq hr]

/-- A value lies in a range whose bounds have the values that `value` says. -/
def RangeContains {V : Type} (value : V → ℚ) (r : EncodedRange V) (q : ℚ) : Prop :=
  r.isEmpty = false ∧
    (∀ v ∈ r.lower, if r.lowerInclusive then value v ≤ q else value v < q) ∧
    ∀ v ∈ r.upper, if r.upperInclusive then q ≤ value v else q < value v

/-- A subtype whose bounds are compared, stepped over and written by their keys. -/
structure LawfulBoundType (V : Type) extends BoundType V where
  /-- What PostgreSQL has as the value of a bound. -/
  value : V → ℚ
  /-- What bounds are compared by. -/
  key : V → ℚ
  /-- A bound that ranges come with. -/
  valid : V → Prop
  /-- The last integer that has an identity, if there is one. -/
  last : Option ℤ
  compare_eq : ∀ v w, compare v w = cmp (key v) (key w)
  key_step : discrete = true → ∀ v, valid v → key (step v) = key v + 1
  isInt_key : discrete = true → ∀ v, ∃ n : ℤ, key v = n
  identity_congr : ∀ v w, key v = key w → identity v = identity w
  denotes : ∀ v i, identity v = .ok i → i.Denotes (key v)
  discrete_of_last : ∀ m ∈ last, discrete = true
  identity_ok : ∀ w, valid w → ∀ v, v = w ∨ v = step w →
    ((∃ i, identity v = .ok i) ↔ ∀ m ∈ last, key v ≠ m + 1)

namespace LawfulBoundType

variable {V : Type} (B : LawfulBoundType V)

/-- A point of the ranges: an integer, where the subtype is discrete. -/
def IsPoint (q : ℚ) : Prop := B.discrete = true → ∃ n : ℤ, q = n

/-- The points of a list of ranges, for some values of the bounds. -/
def points (value : V → ℚ) (ranges : List (EncodedRange V)) : Set ℚ :=
  {q | B.IsPoint q ∧ ∃ r ∈ ranges, RangeContains value r q}

/-- A range whose bounds are valid. -/
def Valid (r : EncodedRange V) : Prop := (∀ v ∈ r.lower, B.valid v) ∧ ∀ v ∈ r.upper, B.valid v

/-- A bound that is valid or comes from a valid one by a step. -/
def Reached (v : V) : Prop := ∃ w, B.valid w ∧ (v = w ∨ v = B.step w)

variable {B}

/-- The form that ranges are merged in. -/
structure Canonical (B : LawfulBoundType V) (n : NormalRange V) : Prop where
  lower_none : n.lower = none → n.lowerInclusive = false
  upper_none : n.upper = none → n.upperInclusive = false
  lower_some : B.discrete = true → n.lower ≠ none → n.lowerInclusive = true
  upper_open : B.discrete = true → n.upperInclusive = false
  lower_reached : ∀ v ∈ n.lower, B.Reached v
  upper_reached : ∀ v ∈ n.upper, B.Reached v

/-- The cuts of a range. -/
def span (B : LawfulBoundType V) (n : NormalRange V) : Span (Cut ℚ) where
  lo := n.lower.elim ⊥ fun v => lowerCut n.lowerInclusive (B.key v)
  hi := n.upper.elim ⊤ fun v => upperCut n.upperInclusive (B.key v)

/-! ### Normalisation -/

section Normalise

theorem canonical_halfOpen {r : EncodedRange V} (hr : B.Valid r) :
    B.Canonical (halfOpen B.toBoundType r) := by
  obtain ⟨isEmpty, lower, upper, lowerInclusive, upperInclusive⟩ := r
  obtain ⟨hlower, hupper⟩ := hr
  have hlower' : ∀ v ∈ (halfOpenLower B.toBoundType lower lowerInclusive).1, B.Reached v := by
    intro v hv
    cases lower with
    | none => cases hv
    | some w =>
      unfold halfOpenLower at hv
      dsimp only at hv
      split_ifs at hv with hdiscrete hinclusive
      · exact ⟨w, hlower w rfl, Or.inl (Option.some.inj hv).symm⟩
      · exact ⟨w, hlower w rfl, Or.inr (Option.some.inj hv).symm⟩
      · exact ⟨w, hlower w rfl, Or.inl (Option.some.inj hv).symm⟩
  have hupper' : ∀ v ∈ (halfOpenUpper B.toBoundType upper upperInclusive).1, B.Reached v := by
    intro v hv
    cases upper with
    | none => cases hv
    | some w =>
      unfold halfOpenUpper at hv
      dsimp only at hv
      split_ifs at hv with hdiscrete hinclusive
      · exact ⟨w, hupper w rfl, Or.inr (Option.some.inj hv).symm⟩
      · exact ⟨w, hupper w rfl, Or.inl (Option.some.inj hv).symm⟩
      · exact ⟨w, hupper w rfl, Or.inl (Option.some.inj hv).symm⟩
  refine ⟨fun h => ?_, fun h => ?_, fun hdiscrete h => ?_, fun hdiscrete => ?_, hlower', hupper'⟩
  · cases lower with
    | none => rfl
    | some w =>
      unfold halfOpen halfOpenLower at h
      dsimp only at h
      split_ifs at h
  · cases upper with
    | none => rfl
    | some w =>
      unfold halfOpen halfOpenUpper at h
      dsimp only at h
      split_ifs at h
  · cases lower with
    | none => exact absurd rfl h
    | some w => simp [halfOpen, halfOpenLower, hdiscrete]
  · cases upper with
    | none => rfl
    | some w => simp [halfOpen, halfOpenUpper, hdiscrete]

/-- Whole numbers compare with the next one. -/
theorem add_one_le_iff_of_isInt {q r : ℚ} (hq : ∃ n : ℤ, q = n) (hr : ∃ n : ℤ, r = n) :
    q + 1 ≤ r ↔ q < r := by
  obtain ⟨n, rfl⟩ := hq
  obtain ⟨m, rfl⟩ := hr
  exact_mod_cast Int.add_one_le_iff

theorem lowerCut_le_before {inclusive : Bool} {q r : ℚ} :
    lowerCut inclusive r ≤ .before q ↔ if inclusive then r ≤ q else r < q := by
  cases inclusive with
  | true => simp [lowerCut, ← not_lt]
  | false => simp [lowerCut, ← not_lt]

theorem before_lt_upperCut {inclusive : Bool} {q r : ℚ} :
    .before q < upperCut inclusive r ↔ if inclusive then q ≤ r else q < r := by
  cases inclusive <;> simp [upperCut]

/-- The points at and after a lower bound. -/
theorem lo_le_iff {r : EncodedRange V} (hr : B.Valid r) {q : ℚ} (hq : B.IsPoint q) :
    (B.span (halfOpen B.toBoundType r)).lo ≤ .before q ↔
      ∀ v ∈ r.lower, if r.lowerInclusive then B.key v ≤ q else B.key v < q := by
  obtain ⟨isEmpty, lower, upper, lowerInclusive, upperInclusive⟩ := r
  cases lower with
  | none => exact iff_of_true bot_le nofun
  | some v =>
    have hv : B.valid v := hr.1 v rfl
    simp only [span, halfOpen, halfOpenLower, Option.mem_def, Option.some.injEq, forall_eq']
    by_cases hdiscrete : B.discrete = true
    · rw [if_pos hdiscrete]
      dsimp only [Option.elim]
      rw [lowerCut_le_before, if_pos rfl]
      cases lowerInclusive with
      | true => rfl
      | false =>
        rw [if_neg Bool.false_ne_true, if_neg Bool.false_ne_true, B.key_step hdiscrete v hv]
        exact add_one_le_iff_of_isInt (B.isInt_key hdiscrete v) (hq hdiscrete)
    · rw [if_neg hdiscrete]
      dsimp only [Option.elim]
      exact lowerCut_le_before

/-- The points before an upper bound. -/
theorem lt_hi_iff {r : EncodedRange V} (hr : B.Valid r) {q : ℚ} (hq : B.IsPoint q) :
    .before q < (B.span (halfOpen B.toBoundType r)).hi ↔
      ∀ v ∈ r.upper, if r.upperInclusive then q ≤ B.key v else q < B.key v := by
  obtain ⟨isEmpty, lower, upper, lowerInclusive, upperInclusive⟩ := r
  cases upper with
  | none => exact iff_of_true Cut.before_lt_top nofun
  | some v =>
    have hv : B.valid v := hr.2 v rfl
    simp only [span, halfOpen, halfOpenUpper, Option.mem_def, Option.some.injEq, forall_eq']
    by_cases hdiscrete : B.discrete = true
    · rw [if_pos hdiscrete]
      dsimp only [Option.elim]
      rw [before_lt_upperCut, if_neg Bool.false_ne_true]
      cases upperInclusive with
      | false => rfl
      | true =>
        rw [if_pos rfl, if_pos rfl, B.key_step hdiscrete v hv]
        rw [← not_le, add_one_le_iff_of_isInt (B.isInt_key hdiscrete v) (hq hdiscrete), not_lt]
    · rw [if_neg hdiscrete]
      dsimp only [Option.elim]
      exact before_lt_upperCut

/-- **What the normalisation keeps**: the ranges whose cuts are in order. -/
theorem normaliseRange_eq {r : EncodedRange V} :
    normaliseRange B.toBoundType r =
      if r.isEmpty = false ∧ (B.span (halfOpen B.toBoundType r)).Proper then
        some (halfOpen B.toBoundType r)
      else none := by
  unfold normaliseRange
  generalize halfOpen B.toBoundType r = n
  obtain ⟨lower, upper, lowerInclusive, upperInclusive⟩ := n
  cases r.isEmpty with
  | true => simp
  | false =>
    cases lower with
    | none =>
      cases upper with
      | none => simp [span, Span.Proper]
      | some u => cases upperInclusive <;> simp [span, Span.Proper, upperCut]
    | some l =>
      cases upper with
      | none => cases lowerInclusive <;> simp [span, Span.Proper, lowerCut]
      | some u =>
        simp only [B.compare_eq]
        rcases lt_trichotomy (B.key l) (B.key u) with h | h | h
        · rw [(cmp_eq_lt_iff _ _).2 h]
          cases lowerInclusive <;> cases upperInclusive <;>
            simp [span, Span.Proper, lowerCut, upperCut, h, h.le]
        · rw [(cmp_eq_eq_iff _ _).2 h]
          cases lowerInclusive <;> cases upperInclusive <;>
            simp [span, Span.Proper, lowerCut, upperCut, h]
        · rw [(cmp_eq_gt_iff _ _).2 h]
          cases lowerInclusive <;> cases upperInclusive <;>
            simp [span, Span.Proper, lowerCut, upperCut, h.le, h]

end Normalise

/-! ### Merging -/

section Merge

variable {l r : NormalRange V}

/-- Ranges are merged that overlap or touch. -/
theorem rangesMergeable_eq (hl : B.Canonical l) (hr : B.Canonical r) :
    rangesMergeable B.toBoundType l r = decide ((B.span r).lo ≤ (B.span l).hi) := by
  have hopen := hl.upper_open
  have hclosed := hr.lower_some
  obtain ⟨lower, upper, lowerInclusive, upperInclusive⟩ := l
  obtain ⟨lower', upper', lowerInclusive', upperInclusive'⟩ := r
  cases upper with
  | none => simp [rangesMergeable, span]
  | some u =>
    cases lower' with
    | none => simp [rangesMergeable, span]
    | some l =>
      simp only [rangesMergeable, B.compare_eq]
      rcases lt_trichotomy (B.key u) (B.key l) with h | h | h
      · rw [(cmp_eq_lt_iff _ _).2 h]
        cases lowerInclusive' <;> cases upperInclusive <;>
          simp [span, lowerCut, upperCut, ← not_lt, h, h.not_gt]
      · rw [(cmp_eq_eq_iff _ _).2 h]
        by_cases hdiscrete : B.discrete = true
        · obtain rfl := hopen hdiscrete
          obtain rfl := hclosed hdiscrete nofun
          simp [span, lowerCut, upperCut, hdiscrete, h]
        · rw [Bool.not_eq_true] at hdiscrete
          cases lowerInclusive' <;> cases upperInclusive <;>
            simp [span, lowerCut, upperCut, ← not_lt, h, hdiscrete]
      · rw [(cmp_eq_gt_iff _ _).2 h]
        cases lowerInclusive' <;> cases upperInclusive <;>
          simp [span, lowerCut, upperCut, ← not_lt, h, h.not_gt]

/-- The comparison is that of the first cuts. -/
theorem compareLower_ne_gt (hl : B.Canonical l) (hr : B.Canonical r) :
    compareLower B.toBoundType l r ≠ .gt ↔ (B.span l).lo ≤ (B.span r).lo := by
  have hnone := hl.lower_none
  have hnone' := hr.lower_none
  obtain ⟨lower, upper, lowerInclusive, upperInclusive⟩ := l
  obtain ⟨lower', upper', lowerInclusive', upperInclusive'⟩ := r
  cases lower with
  | none =>
    obtain rfl := hnone rfl
    cases lower' with
    | none =>
      obtain rfl := hnone' rfl
      simp [compareLower, span]
    | some _ => simp [compareLower, span, Ordering.then]
  | some v =>
    cases lower' with
    | none =>
      cases lowerInclusive <;> simp [compareLower, span, lowerCut, Ordering.then, ← not_lt]
    | some w =>
      simp only [compareLower, B.compare_eq]
      rcases lt_trichotomy (B.key v) (B.key w) with h | h | h
      · rw [(cmp_eq_lt_iff _ _).2 h]
        cases lowerInclusive <;> cases lowerInclusive' <;>
          simp [span, lowerCut, ← not_lt, Ordering.then, h, h.not_gt]
      · rw [(cmp_eq_eq_iff _ _).2 h]
        cases lowerInclusive <;> cases lowerInclusive' <;>
          simp [span, lowerCut, ← not_lt, Ordering.then, h]
      · rw [(cmp_eq_gt_iff _ _).2 h]
        cases lowerInclusive <;> cases lowerInclusive' <;>
          simp [span, lowerCut, ← not_lt, Ordering.then, h, h.not_gt]

/-- The later end is kept. -/
theorem span_extendRange : B.span (extendRange B.toBoundType l r) =
    ⟨(B.span l).lo, max (B.span l).hi (B.span r).hi⟩ := by
  obtain ⟨lower, upper, lowerInclusive, upperInclusive⟩ := l
  obtain ⟨lower', upper', lowerInclusive', upperInclusive'⟩ := r
  cases upper with
  | none => simp [extendRange, span]
  | some u =>
    cases upper' with
    | none => simp [extendRange, span]
    | some u' =>
      simp only [extendRange, B.compare_eq]
      rcases lt_trichotomy (B.key u) (B.key u') with h | h | h
      · rw [(cmp_eq_lt_iff _ _).2 h]
        refine Span.ext rfl (max_eq_right ?_).symm
        cases upperInclusive <;> cases upperInclusive' <;>
          simp [span, upperCut, ← not_lt, h, h.not_gt]
      · rw [(cmp_eq_eq_iff _ _).2 h]
        refine Span.ext rfl ?_
        cases upperInclusive <;> cases upperInclusive' <;>
          simp [span, upperCut, h, ← not_lt]
      · rw [(cmp_eq_gt_iff _ _).2 h]
        refine Span.ext rfl (max_eq_left ?_).symm
        cases upperInclusive <;> cases upperInclusive' <;>
          simp [span, upperCut, ← not_lt, h, h.not_gt]

theorem Canonical.extendRange (hl : B.Canonical l) (hr : B.Canonical r) :
    B.Canonical (extendRange B.toBoundType l r) := by
  obtain ⟨hlower, hupper, hclosed, hopen, hreached, hreached'⟩ := hl
  unfold CdcFlight.extendRange
  split
  · rename_i hsome _
    split
    · exact ⟨hlower, hr.upper_none, hclosed, hr.upper_open, hreached, hr.upper_reached⟩
    · refine ⟨hlower, fun h => ?_, hclosed, fun hdiscrete => ?_, hreached, hreached'⟩
      · exact absurd (hsome.symm.trans h) nofun
      · rw [hopen hdiscrete, hr.upper_open hdiscrete]
        rfl
    · exact ⟨hlower, hupper, hclosed, hopen, hreached, hreached'⟩
  · exact ⟨hlower, fun _ => rfl, hclosed, fun _ => rfl, hreached, nofun⟩

theorem map_span_mergeInto {merged : List (NormalRange V)} (hmerged : ∀ n ∈ merged, B.Canonical n)
    (hr : B.Canonical r) : (mergeInto B.toBoundType merged r).map B.span =
      Span.absorb (merged.map B.span) (B.span r) := by
  cases merged with
  | nil => rfl
  | cons previous merged =>
    have hprevious := hmerged previous List.mem_cons_self
    rw [mergeInto, rangesMergeable_eq hprevious hr, List.map_cons, Span.absorb]
    simp only [decide_eq_true_eq]
    split_ifs
    · rw [List.map_cons, span_extendRange]
    · rfl

theorem canonical_mergeInto {merged : List (NormalRange V)}
    (hmerged : ∀ n ∈ merged, B.Canonical n) (hr : B.Canonical r) :
    ∀ n ∈ mergeInto B.toBoundType merged r, B.Canonical n := by
  cases merged with
  | nil =>
    intro n hn
    rw [List.mem_singleton.1 hn]
    exact hr
  | cons previous merged =>
    obtain ⟨hprevious, hrest⟩ := List.forall_mem_cons.1 hmerged
    rw [mergeInto]
    split_ifs
    · exact List.forall_mem_cons.2 ⟨hprevious.extendRange hr, hrest⟩
    · exact List.forall_mem_cons.2 ⟨hr, hmerged⟩

/-- The loop is that of spans, by induction on the ranges to come. -/
theorem map_span_foldl {ranges merged : List (NormalRange V)}
    (hranges : ∀ n ∈ ranges, B.Canonical n) (hmerged : ∀ n ∈ merged, B.Canonical n) :
    (ranges.foldl (mergeInto B.toBoundType) merged).map B.span =
        (ranges.map B.span).foldl Span.absorb (merged.map B.span) ∧
      ∀ n ∈ ranges.foldl (mergeInto B.toBoundType) merged, B.Canonical n := by
  induction ranges generalizing merged with
  | nil => exact ⟨rfl, hmerged⟩
  | cons r ranges ih =>
    obtain ⟨hr, hranges⟩ := List.forall_mem_cons.1 hranges
    rw [List.foldl_cons, List.map_cons, List.foldl_cons, ← map_span_mergeInto hmerged hr]
    exact ih hranges (canonical_mergeInto hmerged hr)

/-- **The merge is that of spans.** -/
theorem span_mergeRanges {ranges : List (NormalRange V)} (h : ∀ n ∈ ranges, B.Canonical n) :
    (mergeRanges B.toBoundType ranges).map B.span = Span.normalize (ranges.map B.span) ∧
      ∀ n ∈ mergeRanges B.toBoundType ranges, B.Canonical n := by
  let sorted := ranges.mergeSort fun left right => compareLower B.toBoundType left right ≠ .gt
  have hsorted : sorted.map B.span = (ranges.map B.span).mergeSort fun s t => s.lo ≤ t.lo := by
    refine List.map_mergeSort fun l hl r hr => ?_
    exact decide_eq_decide.2 (compareLower_ne_gt (h l hl) (h r hr))
  have hcanonical : ∀ n ∈ sorted, B.Canonical n := fun n hn =>
    h n ((List.mergeSort_perm ranges _).mem_iff.1 hn)
  have hnone : ∀ n ∈ ([] : List (NormalRange V)), B.Canonical n := nofun
  obtain ⟨hmap, hmerged⟩ := map_span_foldl hcanonical hnone
  constructor
  · rw [mergeRanges, List.map_reverse, Span.normalize, ← hsorted]
    exact congrArg List.reverse hmap
  · intro n hn
    exact hmerged n (List.mem_reverse.1 hn)

end Merge

/-! ### Identities -/

section Identities

theorem halfOpen_encoded {n : NormalRange V} (h : B.Canonical n) :
    halfOpen B.toBoundType n.encoded = n := by
  obtain ⟨hlower, hupper, hclosed, hopen, -, -⟩ := h
  obtain ⟨lower, upper, lowerInclusive, upperInclusive⟩ := n
  by_cases hdiscrete : B.discrete = true
  · obtain rfl := hopen hdiscrete
    cases lower with
    | none =>
      obtain rfl := hlower rfl
      cases upper <;> simp [halfOpen, halfOpenLower, halfOpenUpper, NormalRange.encoded, hdiscrete]
    | some l =>
      obtain rfl := hclosed hdiscrete nofun
      cases upper <;> simp [halfOpen, halfOpenLower, halfOpenUpper, NormalRange.encoded, hdiscrete]
  · cases lower with
    | none =>
      obtain rfl := hlower rfl
      cases upper with
      | none =>
        obtain rfl := hupper rfl
        rfl
      | some u => simp [halfOpen, halfOpenLower, halfOpenUpper, NormalRange.encoded, hdiscrete]
    | some l =>
      cases upper with
      | none =>
        obtain rfl := hupper rfl
        simp [halfOpen, halfOpenLower, halfOpenUpper, NormalRange.encoded, hdiscrete]
      | some u => simp [halfOpen, halfOpenLower, halfOpenUpper, NormalRange.encoded, hdiscrete]

/-- A normalised range is its own normal form. -/
theorem normaliseRange_encoded {n : NormalRange V} (h : B.Canonical n)
    (hproper : (B.span n).Proper) :
    normaliseRange B.toBoundType n.encoded = some n := by
  rw [normaliseRange_eq, halfOpen_encoded h, if_pos ⟨rfl, hproper⟩]

theorem rangeIdentity_encoded {n : NormalRange V} (h : B.Canonical n)
    (hproper : (B.span n).Proper) :
    rangeIdentity B.toBoundType n.encoded = normalIdentity B.toBoundType n := by
  rw [rangeIdentity, normaliseRange_encoded h hproper]

/-- An identity says what the range is. -/
theorem denotes_normalIdentity {n : NormalRange V} {id : RangeIdentity}
    (h : normalIdentity B.toBoundType n = .ok id) : id.Denotes (B.span n) := by
  obtain ⟨lower, upper, lowerInclusive, upperInclusive⟩ := n
  obtain ⟨l, hl, h⟩ := except_bind_eq_ok.1 h
  obtain ⟨u, hu, h⟩ := except_bind_eq_ok.1 h
  rw [← Except.ok.inj h]
  constructor
  · cases lower with
    | none => exact Or.inl ⟨(Except.ok.inj hl).symm, rfl⟩
    | some v => exact Or.inr ⟨_, B.denotes v l hl, rfl⟩
  · cases upper with
    | none => exact Or.inl ⟨(Except.ok.inj hu).symm, rfl⟩
    | some v => exact Or.inr ⟨_, B.denotes v u hu, rfl⟩

/-- Ranges with the same cuts have the same identity. -/
theorem normalIdentity_congr {n n' : NormalRange V} (h : B.Canonical n) (h' : B.Canonical n')
    (hspan : B.span n = B.span n') :
    normalIdentity B.toBoundType n = normalIdentity B.toBoundType n' := by
  have hlo : (B.span n).lo = (B.span n').lo := congrArg Span.lo hspan
  have hhi : (B.span n).hi = (B.span n').hi := congrArg Span.hi hspan
  have hlower : n.lowerInclusive = n'.lowerInclusive ∧
      rangeBoundIdentity B.toBoundType n.lower = rangeBoundIdentity B.toBoundType n'.lower := by
    unfold span at hlo
    dsimp only at hlo
    generalize hn : n.lower = o, hn' : n'.lower = o' at hlo
    cases o with
    | none =>
      cases o' with
      | none => exact ⟨(h.lower_none hn).trans (h'.lower_none hn').symm, rfl⟩
      | some w => exact absurd hlo.symm (lowerCut_ne_bot _ _)
    | some v =>
      cases o' with
      | none => exact absurd hlo (lowerCut_ne_bot _ _)
      | some w => exact ⟨(lowerCut_inj hlo).1, B.identity_congr v w (lowerCut_inj hlo).2⟩
  have hupper : n.upperInclusive = n'.upperInclusive ∧
      rangeBoundIdentity B.toBoundType n.upper = rangeBoundIdentity B.toBoundType n'.upper := by
    unfold span at hhi
    dsimp only at hhi
    generalize hn : n.upper = o, hn' : n'.upper = o' at hhi
    cases o with
    | none =>
      cases o' with
      | none => exact ⟨(h.upper_none hn).trans (h'.upper_none hn').symm, rfl⟩
      | some w => exact absurd hhi.symm (upperCut_ne_top _ _)
    | some v =>
      cases o' with
      | none => exact absurd hhi (upperCut_ne_top _ _)
      | some w => exact ⟨(upperCut_inj hhi).1, B.identity_congr v w (upperCut_inj hhi).2⟩
  rw [normalIdentity, normalIdentity, hlower.1, hlower.2, hupper.1, hupper.2]

end Identities

/-! ### Multiranges -/

section Multiranges

variable {ranges ranges' : List (EncodedRange V)}

/-- The spans of the ranges that are not empty. -/
def spans (B : LawfulBoundType V) (ranges : List (EncodedRange V)) : List (Span (Cut ℚ)) :=
  (ranges.filterMap (normaliseRange B.toBoundType)).map B.span

theorem mem_normalised {n : NormalRange V} :
    n ∈ ranges.filterMap (normaliseRange B.toBoundType) ↔ ∃ r ∈ ranges, r.isEmpty = false ∧
      n = halfOpen B.toBoundType r ∧ (B.span n).Proper := by
  rw [List.mem_filterMap]
  refine exists_congr fun r => and_congr_right fun _ => ?_
  rw [normaliseRange_eq]
  split_ifs with h
  · constructor
    · intro heq
      exact ⟨h.1, (Option.some.inj heq).symm, Option.some.inj heq ▸ h.2⟩
    · rintro ⟨-, rfl, -⟩
      rfl
  · refine iff_of_false nofun ?_
    rintro ⟨hempty, rfl, hproper⟩
    exact h ⟨hempty, hproper⟩

theorem canonical_normalised (h : ∀ r ∈ ranges, B.Valid r) :
    ∀ n ∈ ranges.filterMap (normaliseRange B.toBoundType), B.Canonical n := by
  intro n hn
  obtain ⟨r, hr, -, rfl, -⟩ := mem_normalised.1 hn
  exact canonical_halfOpen (h r hr)

theorem proper_spans : ∀ s ∈ B.spans ranges, s.Proper := by
  intro s hs
  obtain ⟨n, hn, rfl⟩ := List.mem_map.1 hs
  obtain ⟨r, -, -, -, hproper⟩ := mem_normalised.1 hn
  exact hproper

/-- **The points of the ranges are those of the spans.** -/
theorem mem_points_key (h : ∀ r ∈ ranges, B.Valid r) {q : ℚ} :
    q ∈ B.points B.key ranges ↔ B.IsPoint q ∧ q ∈ Span.values (B.spans ranges) := by
  refine and_congr_right fun hq => ?_
  constructor
  · rintro ⟨r, hr, hempty, hlower, hupper⟩
    have hlo := (lo_le_iff (h r hr) hq).2 hlower
    have hhi := (lt_hi_iff (h r hr) hq).2 hupper
    refine ⟨_, List.mem_map_of_mem (mem_normalised.2 ⟨r, hr, hempty, rfl, ?_⟩), hlo, hhi⟩
    exact hlo.trans_lt hhi
  · rintro ⟨s, hs, hlo, hhi⟩
    obtain ⟨n, hn, rfl⟩ := List.mem_map.1 hs
    obtain ⟨r, hr, hempty, rfl, -⟩ := mem_normalised.1 hn
    exact ⟨r, hr, hempty, (lo_le_iff (h r hr) hq).1 hlo, (lt_hi_iff (h r hr) hq).1 hhi⟩

/-- The cuts of a discrete range are before integers. -/
theorem mem_positions_floor {n : NormalRange V} (hn : B.Canonical n) (hdiscrete : B.discrete = true)
    {q : ℚ} :
      Cut.before q ∈ (B.span n).positions ↔ Cut.before (⌊q⌋ : ℚ) ∈ (B.span n).positions := by
  have hint {k : ℚ} (hk : ∃ m : ℤ, k = m) : k ≤ q ↔ k ≤ ⌊q⌋ := by
    obtain ⟨m, rfl⟩ := hk
    rw [Int.cast_le, Int.le_floor]
  obtain ⟨hlower, hupper, hclosed, hopen, -, -⟩ := hn
  obtain ⟨lower, upper, lowerInclusive, upperInclusive⟩ := n
  obtain rfl := hopen hdiscrete
  refine and_congr ?_ ?_
  · cases lower with
    | none => exact iff_of_true bot_le bot_le
    | some v =>
      obtain rfl := hclosed hdiscrete nofun
      change lowerCut true (B.key v) ≤ _ ↔ lowerCut true (B.key v) ≤ _
      rw [lowerCut_le_before, lowerCut_le_before, if_pos rfl, if_pos rfl]
      exact hint (B.isInt_key hdiscrete v)
  · cases upper with
    | none => exact iff_of_true Cut.before_lt_top Cut.before_lt_top
    | some v =>
      change _ < upperCut false (B.key v) ↔ _ < upperCut false (B.key v)
      rw [before_lt_upperCut, before_lt_upperCut, if_neg Bool.false_ne_true,
        if_neg Bool.false_ne_true, ← not_le, ← not_le]
      exact not_congr (hint (B.isInt_key hdiscrete v))

theorem mem_values_floor (h : ∀ r ∈ ranges, B.Valid r) (hdiscrete : B.discrete = true) {q : ℚ} :
    q ∈ Span.values (B.spans ranges) ↔ (⌊q⌋ : ℚ) ∈ Span.values (B.spans ranges) := by
  refine exists_congr fun s => and_congr_right fun hs => ?_
  obtain ⟨n, hn, rfl⟩ := List.mem_map.1 hs
  exact mem_positions_floor (canonical_normalised h n hn) hdiscrete

/-- What is covered is determined by the points. -/
theorem values_eq_iff (h : ∀ r ∈ ranges, B.Valid r) (h' : ∀ r ∈ ranges', B.Valid r) :
    Span.values (B.spans ranges) = Span.values (B.spans ranges') ↔
      B.points B.key ranges = B.points B.key ranges' := by
  constructor
  · intro heq
    ext q
    rw [mem_points_key h, mem_points_key h', heq]
  · intro heq
    have hpoint {q : ℚ} (hq : B.IsPoint q) :
        q ∈ Span.values (B.spans ranges) ↔ q ∈ Span.values (B.spans ranges') := by
      have hmem : q ∈ B.points B.key ranges ↔ q ∈ B.points B.key ranges' := by rw [heq]
      rw [mem_points_key h, mem_points_key h'] at hmem
      simpa only [hq, true_and] using hmem
    ext q
    by_cases hdiscrete : B.discrete = true
    · rw [mem_values_floor h hdiscrete, mem_values_floor h' hdiscrete]
      exact hpoint fun _ => ⟨⌊q⌋, rfl⟩
    · exact hpoint fun hd => absurd hd hdiscrete

/-- The normal form of the spans. -/
def normalForm (B : LawfulBoundType V) (ranges : List (EncodedRange V)) : List (Span (Cut ℚ)) :=
  Span.normalize (B.spans ranges)

theorem normal_normalForm : Span.Normal (B.normalForm ranges) := Span.normal_normalize proper_spans

theorem values_normalForm : Span.values (B.normalForm ranges) = Span.values (B.spans ranges) := by
  rw [Span.values, normalForm, Span.covered_normalize proper_spans, Span.values]

theorem normalForm_eq_iff (h : ∀ r ∈ ranges, B.Valid r) (h' : ∀ r ∈ ranges', B.Valid r) :
    B.normalForm ranges = B.normalForm ranges' ↔
      B.points B.key ranges = B.points B.key ranges' := by
  rw [normalForm, normalForm, Span.normalize_eq_iff_values proper_spans proper_spans,
    values_eq_iff h h']

/-- The merged ranges have the cuts of the normal form. -/
theorem merged_spec (h : ∀ r ∈ ranges, B.Valid r) :
    (mergeRanges B.toBoundType (ranges.filterMap (normaliseRange B.toBoundType))).map B.span =
        B.normalForm ranges ∧
      ∀ n ∈ mergeRanges B.toBoundType (ranges.filterMap (normaliseRange B.toBoundType)),
        B.Canonical n ∧ (B.span n).Proper := by
  obtain ⟨hspans, hcanonical⟩ := span_mergeRanges (canonical_normalised h)
  have hnormal : Span.Normal (B.normalForm ranges) := normal_normalForm
  refine ⟨hspans, fun n hn => ⟨hcanonical n hn, hnormal.proper (B.span n) ?_⟩⟩
  rw [normalForm, spans, ← hspans]
  exact List.mem_map_of_mem hn

/-- A pass over rewritten elements. -/
theorem mapM_map_congr {α β γ ε : Type} {f : β → Except ε γ} {g : α → β} {k : α → Except ε γ}
    {l : List α} (h : ∀ a ∈ l, f (g a) = k a) : (l.map g).mapM f = l.mapM k := by
  induction l with
  | nil => rfl
  | cons a l ih =>
    obtain ⟨ha, hl⟩ := List.forall_mem_cons.1 h
    rw [List.map_cons, List.mapM_cons, List.mapM_cons, ha, ih hl]

/-- Re-normalising what was merged changes nothing. -/
theorem multirangeIdentity_eq (h : ∀ r ∈ ranges, B.Valid r) :
    multirangeIdentity B.toBoundType ranges =
      (mergeRanges B.toBoundType (ranges.filterMap (normaliseRange B.toBoundType))).mapM
        (normalIdentity B.toBoundType) :=
  mapM_map_congr fun n hn =>
    rangeIdentity_encoded ((merged_spec h).2 n hn).1 ((merged_spec h).2 n hn).2

theorem mapM_normalIdentity_congr {l l' : List (NormalRange V)} (h : ∀ n ∈ l, B.Canonical n)
    (h' : ∀ n ∈ l', B.Canonical n) (hspans : l.map B.span = l'.map B.span) :
    l.mapM (normalIdentity B.toBoundType) = l'.mapM (normalIdentity B.toBoundType) := by
  induction l generalizing l' with
  | nil =>
    rw [List.map_nil, eq_comm, List.map_eq_nil_iff] at hspans
    rw [hspans]
  | cons n l ih =>
    obtain _ | ⟨n', l'⟩ := l'
    · cases hspans
    · obtain ⟨hn, hl⟩ := List.forall_mem_cons.1 h
      obtain ⟨hn', hl'⟩ := List.forall_mem_cons.1 h'
      rw [List.map_cons, List.map_cons, List.cons.injEq] at hspans
      rw [List.mapM_cons, List.mapM_cons, normalIdentity_congr hn hn' hspans.1, ih hl hl' hspans.2]

/-- **The identity depends on the normal form only.** -/
theorem multirangeIdentity_congr (h : ∀ r ∈ ranges, B.Valid r) (h' : ∀ r ∈ ranges', B.Valid r)
    (hnormal : B.normalForm ranges = B.normalForm ranges') :
    multirangeIdentity B.toBoundType ranges = multirangeIdentity B.toBoundType ranges' := by
  rw [multirangeIdentity_eq h, multirangeIdentity_eq h']
  refine mapM_normalIdentity_congr (fun n hn => ((merged_spec h).2 n hn).1)
    (fun n hn => ((merged_spec h').2 n hn).1) ?_
  rw [(merged_spec h).1, (merged_spec h').1, hnormal]

/-- **The identity says what the normal form is.** -/
theorem denotes_multirangeIdentity (h : ∀ r ∈ ranges, B.Valid r) {ids : List RangeIdentity}
    (hids : multirangeIdentity B.toBoundType ranges = .ok ids) :
    List.Forall₂ RangeIdentity.Denotes ids (B.normalForm ranges) := by
  rw [multirangeIdentity_eq h, mapM_eq_ok_iff] at hids
  rw [← (merged_spec h).1, List.forall₂_map_right_iff]
  exact hids.flip.imp fun _ _ hid => denotes_normalIdentity hid

/-- Cuts before integers, and the ends. -/
def IntegerSpan (s : Span (Cut ℚ)) : Prop :=
  (s.lo = ⊥ ∨ ∃ k : ℤ, s.lo = .before (k : ℚ)) ∧ (s.hi = ⊤ ∨ ∃ k : ℤ, s.hi = .before (k : ℚ))

theorem integerSpan_span {n : NormalRange V} (hn : B.Canonical n) (hdiscrete : B.discrete = true) :
    IntegerSpan (B.span n) := by
  obtain ⟨hlower, hupper, hclosed, hopen, -, -⟩ := hn
  obtain ⟨lower, upper, lowerInclusive, upperInclusive⟩ := n
  obtain rfl := hopen hdiscrete
  constructor
  · cases lower with
    | none => exact Or.inl rfl
    | some v =>
      obtain rfl := hclosed hdiscrete nofun
      obtain ⟨k, hk⟩ := B.isInt_key hdiscrete v
      exact Or.inr ⟨k, congrArg Cut.before hk⟩
  · cases upper with
    | none => exact Or.inl rfl
    | some v =>
      obtain ⟨k, hk⟩ := B.isInt_key hdiscrete v
      exact Or.inr ⟨k, congrArg Cut.before hk⟩

theorem integerSpan_normalForm (h : ∀ r ∈ ranges, B.Valid r) (hdiscrete : B.discrete = true) :
    ∀ s ∈ B.normalForm ranges, IntegerSpan s := by
  obtain ⟨hspans, hmerged⟩ := merged_spec h
  intro s hs
  rw [← hspans] at hs
  obtain ⟨n, hn, rfl⟩ := List.mem_map.1 hs
  exact integerSpan_span (hmerged n hn).1 hdiscrete

/-- A span without a cut between an integer and the next has both of them or none. -/
theorem IntegerSpan.mem_iff {s : Span (Cut ℚ)} (hs : IntegerSpan s) {m : ℤ}
    (hlo : s.lo ≠ .before (m + 1 : ℚ)) (hhi : s.hi ≠ .before (m + 1 : ℚ)) :
    Cut.before (m : ℚ) ∈ s.positions ↔ Cut.before (m + 1 : ℚ) ∈ s.positions := by
  obtain ⟨lo, hi⟩ := s
  obtain ⟨hlo', hhi'⟩ := hs
  have hne {k : ℤ} (h : Cut.before (k : ℚ) ≠ .before (m + 1 : ℚ)) : k ≠ m + 1 := by
    rintro rfl
    exact h (by push_cast; rfl)
  refine and_congr ?_ ?_
  · rcases hlo' with rfl | ⟨k, rfl⟩
    · exact iff_of_true bot_le bot_le
    · have hk := hne hlo
      rw [← not_lt, ← not_lt, Cut.before_lt_before, Cut.before_lt_before]
      norm_cast
      omega
  · rcases hhi' with rfl | ⟨k, rfl⟩
    · exact iff_of_true Cut.before_lt_top Cut.before_lt_top
    · have hk := hne hhi
      rw [Cut.before_lt_before, Cut.before_lt_before]
      norm_cast
      omega

/-- In a normal form no cut is between an integer and the next exactly when both are covered or
none is. -/
theorem no_cut_iff {l : List (Span (Cut ℚ))} (hl : Span.Normal l) (hint : ∀ s ∈ l, IntegerSpan s)
    {m : ℤ} : (∀ s ∈ l, s.lo ≠ .before (m + 1 : ℚ) ∧ s.hi ≠ .before (m + 1 : ℚ)) ↔
      ((m : ℚ) ∈ Span.values l ↔ (m + 1 : ℚ) ∈ Span.values l) := by
  constructor
  · intro h
    exact exists_congr fun s => and_congr_right fun hs =>
      (hint s hs).mem_iff (h s hs).1 (h s hs).2
  · intro h s hs
    have hproper : s.lo < s.hi := hl.proper s hs
    refine ⟨fun hlo => ?_, fun hhi => ?_⟩
    · obtain ⟨t, ht, htlo, hthi⟩ := h.2 ⟨s, hs, hlo.le, hlo ▸ hproper⟩
      have hm : (Cut.before (m : ℚ)) < .before (m + 1 : ℚ) :=
        Cut.before_lt_before.2 (lt_add_one _)
      rcases hl.trichotomy hs ht with rfl | hlt | hlt
      · rw [hlo] at htlo
        exact absurd htlo (not_le.2 hm)
      · exact absurd ((hproper.trans hlt).trans_le htlo) (by rw [hlo]; exact hm.asymm)
      · rcases (hint t ht).2 with htop | ⟨k, hk⟩
        · rw [htop] at hlt
          exact absurd hlt not_top_lt
        · rw [hk, hlo, Cut.before_lt_before] at hlt
          change Cut.before (m : ℚ) < t.hi at hthi
          rw [hk, Cut.before_lt_before] at hthi
          norm_cast at hlt hthi
          omega
    · have hlast : (m : ℚ) ∈ Span.values l := by
        refine ⟨s, hs, ?_, ?_⟩
        · rcases (hint s hs).1 with hbot | ⟨k, hk⟩
          · rw [hbot]
            exact bot_le
          · rw [hk, hhi, Cut.before_lt_before] at hproper
            rw [hk, ← not_lt, Cut.before_lt_before]
            norm_cast at hproper ⊢
            omega
        · rw [hhi, Cut.before_lt_before]
          exact lt_add_one _
      have hnot := hl.hi_notMem hs
      rw [hhi] at hnot
      exact hnot (h.1 hlast)

theorem exists_normalIdentity_iff {n : NormalRange V} (hn : B.Canonical n) :
    (∃ id, normalIdentity B.toBoundType n = .ok id) ↔
      ∀ m ∈ B.last, (B.span n).lo ≠ .before (m + 1 : ℚ) ∧ (B.span n).hi ≠ .before (m + 1 : ℚ) := by
  have hreached {v : V} (hv : B.Reached v) :
      (∃ i, B.identity v = .ok i) ↔ ∀ m ∈ B.last, B.key v ≠ m + 1 := by
    obtain ⟨w, hw, hv⟩ := hv
    exact B.identity_ok w hw v hv
  have hlower : (∃ i, rangeBoundIdentity B.toBoundType n.lower = .ok i) ↔
      ∀ m ∈ B.last, (B.span n).lo ≠ .before (m + 1 : ℚ) := by
    unfold span
    cases hv : n.lower with
    | none => exact iff_of_true ⟨_, rfl⟩ fun m _ => Cut.bot_lt_before.ne
    | some v =>
      refine (hreached (hn.lower_reached v hv)).trans (forall₂_congr fun m hm => not_congr ?_)
      rw [hn.lower_some (B.discrete_of_last m hm) (by rw [hv]; nofun)]
      exact Cut.before_injective.eq_iff.symm
  have hupper : (∃ i, rangeBoundIdentity B.toBoundType n.upper = .ok i) ↔
      ∀ m ∈ B.last, (B.span n).hi ≠ .before (m + 1 : ℚ) := by
    unfold span
    cases hv : n.upper with
    | none => exact iff_of_true ⟨_, rfl⟩ fun m _ => Cut.before_lt_top.ne'
    | some v =>
      refine (hreached (hn.upper_reached v hv)).trans (forall₂_congr fun m hm => not_congr ?_)
      rw [hn.upper_open (B.discrete_of_last m hm)]
      exact Cut.before_injective.eq_iff.symm
  simp only [forall₂_and, ← hlower, ← hupper, normalIdentity]
  constructor
  · rintro ⟨id, h⟩
    obtain ⟨l, hl, h⟩ := except_bind_eq_ok.1 h
    obtain ⟨u, hu, -⟩ := except_bind_eq_ok.1 h
    exact ⟨⟨l, hl⟩, u, hu⟩
  · rintro ⟨⟨l, hl⟩, u, hu⟩
    rw [hl, hu]
    exact ⟨_, rfl⟩

/-- **Where there is an identity**: the points go on past the last integer or stop before it. -/
theorem exists_multirangeIdentity_iff (h : ∀ r ∈ ranges, B.Valid r) :
    (∃ ids, multirangeIdentity B.toBoundType ranges = .ok ids) ↔
      ∀ m ∈ B.last,
        ((m : ℚ) ∈ B.points B.key ranges ↔ (m + 1 : ℚ) ∈ B.points B.key ranges) := by
  obtain ⟨hspans, hmerged⟩ := merged_spec h
  have hnormal : Span.Normal (B.normalForm ranges) := normal_normalForm
  have hpoints (m : ℤ) (k : ℚ) (hk : k = m) :
      k ∈ B.points B.key ranges ↔ k ∈ Span.values (B.normalForm ranges) := by
    rw [mem_points_key h, values_normalForm]
    exact and_iff_right fun _ => ⟨m, hk⟩
  have hcuts (m : ℤ) (hm : m ∈ B.last) :
      ((m : ℚ) ∈ B.points B.key ranges ↔ (m + 1 : ℚ) ∈ B.points B.key ranges) ↔
        ∀ s ∈ B.normalForm ranges, s.lo ≠ .before (m + 1 : ℚ) ∧ s.hi ≠ .before (m + 1 : ℚ) := by
    rw [hpoints m m rfl, hpoints (m + 1) (m + 1) (by push_cast; rfl), no_cut_iff hnormal]
    exact integerSpan_normalForm h (B.discrete_of_last m hm)
  rw [multirangeIdentity_eq h, exists_mapM_eq_ok_iff, forall₂_congr hcuts, ← hspans]
  constructor
  · intro hok m hm s hs
    obtain ⟨n, hn, rfl⟩ := List.mem_map.1 hs
    exact (exists_normalIdentity_iff (hmerged n hn).1).1 (hok n hn) m hm
  · intro hno n hn
    exact (exists_normalIdentity_iff (hmerged n hn).1).2 fun m hm =>
      hno m hm _ (List.mem_map_of_mem hn)

/-! ### Which multiranges keep their points -/

/-- There is a point of the type between the cuts. -/
def HasPoint (B : LawfulBoundType V) (s : Span (Cut ℚ)) : Prop :=
  ∃ q, B.IsPoint q ∧ Cut.before q ∈ s.positions

/-- Every span holds a point of the type, and there is one between any two of them. -/
structure Separated (B : LawfulBoundType V) (spans : List (Span (Cut ℚ))) : Prop where
  nonempty : ∀ s ∈ spans, B.HasPoint s
  apart : spans.Pairwise fun s t => B.HasPoint ⟨s.hi, t.lo⟩

/-- Where the points are all rationals, there is one between any two cuts. -/
theorem hasPoint_of_not_discrete (hdiscrete : ¬ B.discrete = true) {s : Span (Cut ℚ)}
    (hs : s.lo < s.hi) : B.HasPoint s := by
  obtain ⟨q, hlo, hhi⟩ := Cut.exists_before hs
  exact ⟨q, fun h => absurd h hdiscrete, hlo, hhi⟩

theorem hasPoint_before {k : ℤ} {hi : Cut ℚ} (h : Cut.before (k : ℚ) < hi) :
    B.HasPoint ⟨.before (k : ℚ), hi⟩ := ⟨k, fun _ => ⟨k, rfl⟩, le_rfl, h⟩

theorem IntegerSpan.hasPoint {s : Span (Cut ℚ)} (hs : IntegerSpan s) (hproper : s.lo < s.hi) :
    B.HasPoint s := by
  obtain ⟨lo, hi⟩ := s
  obtain ⟨rfl | ⟨k, rfl⟩, hhi⟩ := hs
  · rcases hhi with rfl | ⟨k, rfl⟩
    · exact ⟨(0 : ℤ), fun _ => ⟨0, rfl⟩, bot_le, Cut.before_lt_top⟩
    · refine ⟨(k - 1 : ℤ), fun _ => ⟨k - 1, rfl⟩, bot_le, Cut.before_lt_before.2 ?_⟩
      exact_mod_cast sub_one_lt k
  · exact hasPoint_before hproper

/-- The normal form is one in the points of the type: of integers it joins what is adjacent. -/
theorem separated_normalForm (h : ∀ r ∈ ranges, B.Valid r) :
    B.Separated (B.normalForm ranges) := by
  have hnormal : Span.Normal (B.normalForm ranges) := normal_normalForm
  by_cases hdiscrete : B.discrete = true
  · have hint := integerSpan_normalForm h hdiscrete
    refine ⟨fun s hs => (hint s hs).hasPoint (hnormal.proper s hs), ?_⟩
    refine hnormal.apart.imp_of_mem fun {s t} hs _ hlt => ?_
    rcases (hint s hs).2 with htop | ⟨k, hk⟩
    · rw [htop] at hlt
      exact absurd hlt not_top_lt
    · rw [hk] at hlt ⊢
      exact hasPoint_before hlt
  · exact ⟨fun s hs => hasPoint_of_not_discrete hdiscrete (hnormal.proper s hs),
      hnormal.apart.imp fun hlt => hasPoint_of_not_discrete hdiscrete hlt⟩

/-- The identity of a list of ranges is a normal form of its points, also where these are integers,
depends on its members only, and is that of the merged ranges. -/
structure HasNormalIdentity (B : LawfulBoundType V) (ranges : List (EncodedRange V)) : Prop where
  normal : ∃ ids spans, multirangeIdentity B.toBoundType ranges = .ok ids ∧
    List.Forall₂ RangeIdentity.Denotes ids spans ∧ Span.Normal spans ∧ B.Separated spans ∧
    {q | B.IsPoint q ∧ q ∈ Span.values spans} = B.points B.value ranges
  members : ∀ ranges' : List (EncodedRange V), (∀ r, r ∈ ranges' ↔ r ∈ ranges) →
    multirangeIdentity B.toBoundType ranges' = multirangeIdentity B.toBoundType ranges
  idempotent : multirangeIdentity B.toBoundType (mergedRanges B.toBoundType ranges) =
    multirangeIdentity B.toBoundType ranges

/-- What the code takes for the points are the points, and they do not stop at the last integer
that has an identity, nor start after it. -/
structure ExactRanges (B : LawfulBoundType V) (ranges : List (EncodedRange V)) : Prop where
  points_eq : B.points B.key ranges = B.points B.value ranges
  last_iff : ∀ m ∈ B.last,
    ((m : ℚ) ∈ B.points B.value ranges ↔ (m + 1 : ℚ) ∈ B.points B.value ranges)

theorem multirangeIdentity_members (h : ∀ r ∈ ranges, B.Valid r)
    (hmem : ∀ r, r ∈ ranges' ↔ r ∈ ranges) :
    multirangeIdentity B.toBoundType ranges' = multirangeIdentity B.toBoundType ranges := by
  have h' : ∀ r ∈ ranges', B.Valid r := fun r hr => h r ((hmem r).1 hr)
  refine multirangeIdentity_congr h' h ((normalForm_eq_iff h' h).2 ?_)
  ext q
  exact and_congr_right fun _ => exists_congr fun r => and_congr_left' (hmem r)

/-- **The merged ranges have the same identity.** -/
theorem multirangeIdentity_mergedRanges (h : ∀ r ∈ ranges, B.Valid r) :
    multirangeIdentity B.toBoundType (mergedRanges B.toBoundType ranges) =
      multirangeIdentity B.toBoundType ranges := by
  obtain ⟨hspans, hmerged⟩ := merged_spec h
  let merged := mergeRanges B.toBoundType (ranges.filterMap (normaliseRange B.toBoundType))
  have hkept : (merged.map NormalRange.encoded).filterMap (normaliseRange B.toBoundType) =
      merged := by
    rw [List.filterMap_map]
    conv_rhs => rw [← List.filterMap_some (l := merged)]
    exact List.filterMap_congr fun n hn =>
      normaliseRange_encoded (hmerged n hn).1 (hmerged n hn).2
  have hnormal : Span.Normal (B.normalForm ranges) := normal_normalForm
  have hcanonical : ∀ n ∈ merged, B.Canonical n := fun n hn => (hmerged n hn).1
  obtain ⟨hspans', hmerged'⟩ := span_mergeRanges hcanonical
  have hfixed : (mergeRanges B.toBoundType merged).map B.span = merged.map B.span := by
    rw [hspans', hspans, Span.normalize_of_normal hnormal]
  have hagain : multirangeIdentity B.toBoundType (mergedRanges B.toBoundType ranges) =
      (mergeRanges B.toBoundType merged).mapM (normalIdentity B.toBoundType) := by
    unfold multirangeIdentity
    rw [mergedRanges, mergedRanges, hkept]
    refine mapM_map_congr fun n hn => rangeIdentity_encoded (hmerged' n hn) ?_
    refine hnormal.proper _ ?_
    rw [← hspans, ← hfixed]
    exact List.mem_map_of_mem hn
  rw [hagain, multirangeIdentity_eq h]
  exact mapM_normalIdentity_congr hmerged' (fun n hn => (hmerged n hn).1) hfixed

theorem hasNormalIdentity_iff (h : ∀ r ∈ ranges, B.Valid r) :
    B.HasNormalIdentity ranges ↔ B.ExactRanges ranges := by
  have hform : {q | B.IsPoint q ∧ q ∈ Span.values (B.normalForm ranges)} =
      B.points B.key ranges := by
    ext q
    rw [mem_points_key h, values_normalForm]
    rfl
  constructor
  · rintro ⟨⟨ids, spans, hids, hdenotes, -, -, hpoints⟩, -, -⟩
    have hspans : spans = B.normalForm ranges :=
      List.right_unique_forall₂' (fun _ _ _ hs ht => hs.eq ht) hdenotes
        (denotes_multirangeIdentity h hids)
    rw [hspans, hform] at hpoints
    refine ⟨hpoints, ?_⟩
    rw [← hpoints]
    exact (exists_multirangeIdentity_iff h).1 ⟨ids, hids⟩
  · rintro ⟨hpoints, hlast⟩
    rw [← hpoints] at hlast
    obtain ⟨ids, hids⟩ := (exists_multirangeIdentity_iff h).2 hlast
    exact ⟨⟨ids, _, hids, denotes_multirangeIdentity h hids, normal_normalForm,
      separated_normalForm h, hform.trans hpoints⟩, fun _ hmem => multirangeIdentity_members h hmem,
      multirangeIdentity_mergedRanges h⟩

/-- Identities of such lists are equal as the points are. -/
theorem multirangeIdentity_eq_iff (h : ∀ r ∈ ranges, B.Valid r) (h' : ∀ r ∈ ranges', B.Valid r)
    (hexact : B.ExactRanges ranges) (hexact' : B.ExactRanges ranges') :
    multirangeIdentity B.toBoundType ranges = multirangeIdentity B.toBoundType ranges' ↔
      B.points B.value ranges = B.points B.value ranges' := by
  obtain ⟨ids, spans, hids, hdenotes, -, -, hpoints⟩ :=
    ((hasNormalIdentity_iff h).2 hexact).normal
  obtain ⟨ids', spans', hids', hdenotes', -, -, hpoints'⟩ :=
    ((hasNormalIdentity_iff h').2 hexact').normal
  constructor
  · intro heq
    rw [hids, hids', Except.ok.injEq] at heq
    subst heq
    have hspans : spans = spans' :=
      List.right_unique_forall₂' (fun _ _ _ hs ht => hs.eq ht) hdenotes hdenotes'
    rw [← hpoints, ← hpoints', hspans]
  · intro heq
    refine multirangeIdentity_congr h h' ((normalForm_eq_iff h h').2 ?_)
    rw [hexact.points_eq, hexact'.points_eq, heq]

end Multiranges

end LawfulBoundType

/-! ### The range types -/

section Laws

/-- Integers. -/
def intLaws (kind : String) (least last : ℤ) : LawfulBoundType ℤ where
  toBoundType := intBounds kind least last
  value n := n
  key n := n
  valid n := least ≤ n ∧ n ≤ last
  last := some last
  compare_eq n m := (Int.cast_strictMono.cmp_map_eq n m).symm
  key_step _ n _ := by
    change ((n + 1 : ℤ) : ℚ) = n + 1
    push_cast
    rfl
  isInt_key _ n := ⟨n, rfl⟩
  identity_congr n m h := by rw [Int.cast_injective h]
  denotes n i h := by
    unfold intBounds at h
    dsimp only at h
    split_ifs at h
    rw [← Except.ok.inj h]
    exact ⟨n, rfl, rfl⟩
  discrete_of_last _ _ := rfl
  identity_ok w hw v hv := by
    have hlast : (∀ m ∈ some last, (v : ℚ) ≠ m + 1) ↔ v ≠ last + 1 := by
      simp only [Option.mem_def, Option.some.injEq, forall_eq']
      norm_cast
    have hvalid : least ≤ v ∧ v ≤ last ↔ v ≠ last + 1 := by
      have hstep : v = w ∨ v = w + 1 := hv
      omega
    rw [hlast, ← hvalid]
    unfold intBounds
    dsimp only
    split_ifs with h
    · exact iff_of_true ⟨_, rfl⟩ h
    · exact iff_of_false nofun h

theorem DateBound.ordinal_step (d : CivilDate) :
    (DateBound.step (.date d)).ordinal = d.toOrdinal + 1 := by
  have hstep : step (.date d) = (d.next.map DateBound.date).getD (.infinity true) := rfl
  rw [hstep]
  cases hnext : d.next with
  | none =>
    rw [CivilDate.toOrdinal_of_next_eq_none hnext]
    rfl
  | some d' => exact CivilDate.toOrdinal_next hnext

theorem DateBound.compare_eq (b b' : DateBound) : b.compare b' = cmp b.ordinal b'.ordinal := by
  have hpos (d : CivilDate) : 0 < d.toOrdinal := by
    have hday := d.day_pos
    unfold CivilDate.toOrdinal
    omega
  have hle (d : CivilDate) : d.toOrdinal < CivilDate.maxOrdinal + 1 :=
    Nat.lt_succ_of_le d.toOrdinal_le_maxOrdinal
  cases b with
  | date d =>
    cases b' with
    | date d' => rfl
    | infinity q =>
      cases q
      · exact ((cmp_eq_gt_iff _ _).2 (hpos d)).symm
      · exact ((cmp_eq_lt_iff _ _).2 (hle d)).symm
  | infinity p =>
    cases b' with
    | date d' =>
      cases p
      · exact ((cmp_eq_lt_iff _ _).2 (hpos d')).symm
      · exact ((cmp_eq_gt_iff _ _).2 (hle d')).symm
    | infinity q => cases p <;> cases q <;> rfl

theorem DateBound.ordinal_injective : Function.Injective DateBound.ordinal := by
  intro b b' h
  have hcompare : b.compare b' = .eq := by
    rw [compare_eq]
    exact (cmp_eq_eq_iff _ _).2 h
  cases b with
  | date d =>
    cases b' with
    | date d' => exact congrArg DateBound.date (CivilDate.toOrdinal_injective h)
    | infinity q => cases q <;> cases hcompare
  | infinity p =>
    cases b' with
    | date d' => cases p <;> cases hcompare
    | infinity q => cases p <;> cases q <;> first | rfl | cases hcompare

/-- Dates, by their numbers. -/
def dateLaws : LawfulBoundType DateBound where
  toBoundType := dateBounds
  value b := b.ordinal
  key b := b.ordinal
  valid b := ∃ d, b = .date d
  last := none
  compare_eq b b' := by
    change b.compare b' = _
    rw [b.compare_eq, Nat.strictMono_cast.cmp_map_eq]
  key_step := by
    rintro - _ ⟨d, rfl⟩
    change ((DateBound.step (.date d)).ordinal : ℚ) = d.toOrdinal + 1
    rw [DateBound.ordinal_step]
    push_cast
    rfl
  isInt_key _ b := ⟨b.ordinal, by push_cast; rfl⟩
  identity_congr b b' h := by rw [DateBound.ordinal_injective (Nat.cast_injective h)]
  denotes b i h := by
    cases b with
    | date d =>
      rw [← Except.ok.inj h]
      exact ⟨d, rfl, rfl⟩
    | infinity positive =>
      rw [← Except.ok.inj h]
      cases positive <;> simp [BoundIdentity.Denotes, DateBound.ordinal]
  discrete_of_last := nofun
  identity_ok _ _ b _ := by
    refine iff_of_true ?_ nofun
    cases b
    · exact ⟨_, rfl⟩
    · exact ⟨_, rfl⟩

/-- The number of a coefficient and a scale. -/
def ScaledNumeric.value (x : ScaledNumeric) : ℚ := x.coefficient * 10 ^ (-x.scale)

/-- Rounding keeps the numbers with few significant digits. -/
theorem ScaledNumeric.rounded_value {x : ScaledNumeric}
    (h : (DecimalNumber.ofInt x.coefficient).Significant contextPrecision) :
    x.rounded.value = x.value := by
  let d : DecimalNumber := { DecimalNumber.ofInt x.coefficient with exponent := -x.scale }
  have hvalue : d.value = x.value := value_struct x.coefficient x.scale
  have hround := (DecimalNumber.round_value_eq_iff contextPrecision_pos).2
    (show d.Significant contextPrecision from h)
  rw [rounded, value_rescaled hvalue.symm, hround, hvalue]

/-- Numerics, by what rounding makes of them. -/
def numericLaws : LawfulBoundType ScaledNumeric where
  toBoundType := numericBounds
  value := ScaledNumeric.value
  key x := x.rounded.value
  valid _ := True
  last := none
  compare_eq _ _ := rfl
  key_step := nofun
  isInt_key := nofun
  identity_congr x y h := by
    change Except.ok (BoundIdentity.numeric _) = Except.ok (BoundIdentity.numeric _)
    rw [canonicalDecimalText_eq, canonicalDecimalText_eq, DecimalNumber.plainText_eq_iff.2 h]
  denotes x i h := by
    rw [← Except.ok.inj h]
    exact ⟨x.rounded, canonicalDecimalText_eq _, rfl⟩
  discrete_of_last := nofun
  identity_ok _ _ _ _ := iff_of_true ⟨_, rfl⟩ nofun

/-- Timestamps, by their microseconds. -/
def timestampLaws : LawfulBoundType PyDatetime where
  toBoundType := timestampBounds
  value t := t.microseconds
  key t := t.microseconds
  valid _ := True
  last := none
  compare_eq t t' := (Nat.strictMono_cast.cmp_map_eq t.microseconds t'.microseconds).symm
  key_step := nofun
  isInt_key := nofun
  identity_congr t t' h := by rw [PyDatetime.microseconds_injective (Nat.cast_injective h)]
  denotes t i h := by
    rw [← Except.ok.inj h]
    exact ⟨t, rfl, rfl⟩
  discrete_of_last := nofun
  identity_ok _ _ _ _ := iff_of_true ⟨_, rfl⟩ nofun

end Laws

namespace RangeType

/-- What is known of the subtype. -/
def laws : (T : RangeType) → LawfulBoundType T.Value
  | int4range => intLaws "int4" (-2 ^ 31) (2 ^ 31 - 1)
  | int8range => intLaws "int8" (-2 ^ 63) (2 ^ 63 - 1)
  | daterange => dateLaws
  | numrange => numericLaws
  | tsrange => timestampLaws

@[simp] theorem toBoundType_laws (T : RangeType) : T.laws.toBoundType = T.bounds := by
  cases T <;> rfl

/-- **Which multiranges keep their points**: two lists of ranges have identities that are normal
forms of their points, depend on their members only, are those of the merged ranges, and are equal
exactly when the points are, if and only if the points of both are exact. -/
theorem multirangeIdentity_iff (T : RangeType) {ranges ranges' : List (EncodedRange T.Value)}
    (h : ∀ r ∈ ranges, T.laws.Valid r) (h' : ∀ r ∈ ranges', T.laws.Valid r) :
    (T.laws.HasNormalIdentity ranges ∧ T.laws.HasNormalIdentity ranges' ∧
      (multirangeIdentity T.bounds ranges = multirangeIdentity T.bounds ranges' ↔
        T.laws.points T.laws.value ranges = T.laws.points T.laws.value ranges')) ↔
    T.laws.ExactRanges ranges ∧ T.laws.ExactRanges ranges' := by
  rw [LawfulBoundType.hasNormalIdentity_iff h, LawfulBoundType.hasNormalIdentity_iff h',
    ← toBoundType_laws]
  constructor
  · rintro ⟨hexact, hexact', -⟩
    exact ⟨hexact, hexact'⟩
  · rintro ⟨hexact, hexact'⟩
    exact ⟨hexact, hexact', LawfulBoundType.multirangeIdentity_eq_iff h h' hexact hexact'⟩

theorem points_congr {V : Type} {B : LawfulBoundType V} {f g : V → ℚ}
    {ranges : List (EncodedRange V)}
    (h : ∀ r ∈ ranges, ∀ v, v ∈ r.lower ∨ v ∈ r.upper → f v = g v) :
    B.points f ranges = B.points g ranges := by
  ext q
  refine and_congr_right fun _ => exists_congr fun r => and_congr_right fun hr =>
    and_congr_right fun _ => and_congr ?_ ?_
  · exact forall₂_congr fun v hv => by rw [h r hr v (Or.inl hv)]
  · exact forall₂_congr fun v hv => by rw [h r hr v (Or.inr hv)]

/-- Dates and timestamps are exact. -/
theorem exactRanges_of_key_eq {V : Type} {B : LawfulBoundType V} (hkey : B.key = B.value)
    (hlast : B.last = none) (ranges : List (EncodedRange V)) : B.ExactRanges ranges where
  points_eq := by rw [hkey]
  last_iff := by
    rw [hlast]
    exact nofun

theorem exactRanges_daterange (ranges : List (EncodedRange (Value daterange))) :
    (laws daterange).ExactRanges ranges := exactRanges_of_key_eq rfl rfl ranges

theorem exactRanges_tsrange (ranges : List (EncodedRange (Value tsrange))) :
    (laws tsrange).ExactRanges ranges := exactRanges_of_key_eq rfl rfl ranges

/-- Numerics whose bounds have few significant digits are exact. -/
theorem exactRanges_numrange {ranges : List (EncodedRange ScaledNumeric)}
    (h : ∀ r ∈ ranges, ∀ x, x ∈ r.lower ∨ x ∈ r.upper →
      (DecimalNumber.ofInt x.coefficient).Significant contextPrecision) :
    (laws numrange).ExactRanges ranges where
  points_eq := points_congr fun r hr x hx => ScaledNumeric.rounded_value (h r hr x hx)
  last_iff := nofun

end RangeType

namespace Accounts

/-- The numbers from `a` to `b`, the last not among them. -/
def between (a b : ℤ) : EncodedRange ℤ := ⟨false, some a, some b, true, false⟩

theorem valid_between {a b : ℤ} (ha : -2 ^ 31 ≤ a) (ha' : a < 2 ^ 31) (hb : -2 ^ 31 ≤ b)
    (hb' : b < 2 ^ 31) : RangeType.int4range.laws.Valid (between a b) := by
  constructor
  · rintro v ⟨⟩
    exact ⟨ha, Int.le_sub_one_of_lt ha'⟩
  · rintro v ⟨⟩
    exact ⟨hb, Int.le_sub_one_of_lt hb'⟩

theorem exactRanges_between {ranges : List (EncodedRange ℤ)}
    (h : ∀ r ∈ ranges, ∃ a b, r = between a b ∧ b < 2 ^ 31) :
    RangeType.int4range.laws.ExactRanges ranges where
  points_eq := rfl
  last_iff := by
    have hlast (q : ℚ) (hq : ((2 ^ 31 - 1 : ℤ) : ℚ) ≤ q) :
        q ∉ RangeType.int4range.laws.points RangeType.int4range.laws.value ranges := by
      rintro ⟨-, r, hr, -, -, hupper⟩
      obtain ⟨a, b, rfl, hb⟩ := h r hr
      have hlt : ((2 ^ 31 - 1 : ℤ) : ℚ) < (b : ℚ) := hq.trans_lt (hupper b rfl)
      rw [Int.cast_lt] at hlt
      omega
    rintro m ⟨⟩
    exact iff_of_false (hlast _ le_rfl) (hlast _ (by linarith))

/-- Two ranges that overlap, and their union. -/
theorem multirangeIdentity_between :
    RangeType.int4range.laws.HasNormalIdentity [between 2 5, between 1 3] ∧
      RangeType.int4range.laws.HasNormalIdentity [between 1 5] ∧
      (multirangeIdentity RangeType.int4range.bounds [between 2 5, between 1 3] =
          multirangeIdentity RangeType.int4range.bounds [between 1 5] ↔
        RangeType.int4range.laws.points RangeType.int4range.laws.value
            [between 2 5, between 1 3] =
          RangeType.int4range.laws.points RangeType.int4range.laws.value [between 1 5]) := by
  refine (RangeType.multirangeIdentity_iff .int4range ?_ ?_).2
    ⟨exactRanges_between ?_, exactRanges_between ?_⟩
  · rintro r (_ | ⟨_, _ | ⟨_, ⟨⟩⟩⟩) <;>
    exact valid_between (by decide) (by decide) (by decide) (by decide)
  · rintro r (_ | ⟨_, ⟨⟩⟩)
    exact valid_between (by decide) (by decide) (by decide) (by decide)
  · rintro r (_ | ⟨_, _ | ⟨_, ⟨⟩⟩⟩) <;> exact ⟨_, _, rfl, by decide⟩
  · rintro r (_ | ⟨_, ⟨⟩⟩)
    exact ⟨_, _, rfl, by decide⟩

/-- `1 + n / 10 ^ 28`. -/
def nearOne (n : ℤ) : ScaledNumeric := ⟨10 ^ 28 + n, 28⟩

/-- The numerics from `nearOne 1` to `nearOne 2`, the last not among them. -/
def narrow : EncodedRange ScaledNumeric := ⟨false, some (nearOne 1), some (nearOne 2), true, false⟩

theorem rounded_nearOne : (nearOne 1).rounded = (nearOne 2).rounded := by rfl

theorem nearOne_mem_points :
    (nearOne 1).value ∈ RangeType.numrange.laws.points RangeType.numrange.laws.value [narrow] := by
  refine ⟨nofun, narrow, List.mem_singleton_self _, rfl, ?_, ?_⟩
  · rintro v ⟨⟩
    exact le_rfl
  · rintro v ⟨⟩
    show (nearOne 1).value < (nearOne 2).value
    norm_num [ScaledNumeric.value, nearOne]

/-- Both bounds are rounded to one, and the range is taken for empty. -/
theorem not_hasNormalIdentity_narrow :
    multirangeIdentity RangeType.numrange.bounds [narrow] = .ok [] ∧
      (nearOne 1).value ∈ RangeType.numrange.laws.points RangeType.numrange.laws.value [narrow] ∧
      ¬RangeType.numrange.laws.HasNormalIdentity [narrow] := by
  have hcompare : numericBounds.compare (nearOne 1) (nearOne 2) = .eq := by
    show cmp (nearOne 1).rounded.value (nearOne 2).rounded.value = .eq
    rw [rounded_nearOne, cmp_self_eq_eq]
  have hempty : normaliseRange numericBounds narrow = none := by
    have hhalf :
        halfOpen numericBounds narrow = ⟨some (nearOne 1), some (nearOne 2), true, false⟩ :=
      rfl
    simp [normaliseRange, hhalf, hcompare]
  refine ⟨?_, nearOne_mem_points, fun hnormal => ?_⟩
  · show multirangeIdentity numericBounds [narrow] = .ok []
    simp [multirangeIdentity, mergedRanges, hempty, mergeRanges, pure, Except.pure]
  · have hvalid : ∀ r ∈ [narrow], RangeType.numrange.laws.Valid r :=
      fun r _ => ⟨fun _ _ => trivial, fun _ _ => trivial⟩
    have hexact := (LawfulBoundType.hasNormalIdentity_iff hvalid).1 hnormal
    obtain ⟨-, r, hr, -, hlower, hupper⟩ :=
      (Set.ext_iff.1 hexact.points_eq _).2 nearOne_mem_points
    obtain rfl := List.mem_singleton.1 hr
    have hle : (nearOne 1).rounded.value ≤ (nearOne 1).value := hlower _ rfl
    have hlt : (nearOne 1).value < (nearOne 2).rounded.value := hupper _ rfl
    rw [← rounded_nearOne] at hlt
    exact absurd hle (not_le.2 hlt)

end Accounts

end CdcFlight
