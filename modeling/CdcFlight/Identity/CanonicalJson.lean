import CdcFlight.Identity.Distinct
import CdcFlight.Lib.Binary64
import CdcFlight.Lib.CivilDate
import CdcFlight.Lib.Json

/-!
# Digest material

`event_ledger.canonical_json` writes the values that digests are made of, and the images that
`scd2._verify_before` compares, as JSON texts. Values without a JSON form become objects with one
tagged member, and so does every mapping: the tag `__mapping__` holds its pairs, sorted by the
texts of their keys.

Values are compared as they are, type by type: decimals by sign, digits and exponent, floats with
the sign of zero. The limits of the interpreter on the depth of a recursion and on the digits of an
integer are left out.

## Main definitions

* `CdcFlight.PyValue`: the values.
* `CdcFlight.jsonable`, `CdcFlight.canonicalJson`.
* `CdcFlight.PyValue.Same`: equal up to the order of mappings and to lists and tuples.

## Main results

* `CdcFlight.sortKey_eq`: a pair is sorted by the canonical text of its key.
* `CdcFlight.canonicalJson_eq_iff`: the texts are equal exactly when the values are.
* `CdcFlight.verifyBefore_eq_ok_iff`: the images that pass as their predecessor.
-/

namespace CdcFlight

open Lib

/-! ### Values -/

/-- The exponent of a `Decimal`, or the letter in its place. -/
inductive DecimalExponent
  | finite (n : ℤ)
  | infinity
  | nan
  | signallingNan
deriving DecidableEq, Repr

/-- `Decimal.as_tuple`. -/
structure DecimalTuple where
  negative : Bool
  digits : List ℕ
  exponent : DecimalExponent
deriving DecidableEq, Repr

/-- A naive `datetime`. -/
@[ext]
structure PyDatetime where
  date : CivilDate
  hour : Fin 24
  minute : Fin 60
  second : Fin 60
  microsecond : Fin 1000000
deriving DecidableEq

/-- A value that holds no others. -/
inductive PyAtom
  | none
  | bool (b : Bool)
  | int (n : ℤ)
  | float (x : Binary64)
  | str (text : List Char)
  | bytes (raw : List UInt8)
  | decimal (d : DecimalTuple)
  | datetime (t : PyDatetime)
  | date (d : CivilDate)
deriving DecidableEq

/-- A value: an atom, a list or a tuple, or a mapping with its pairs in order. -/
inductive PyValue
  | atom (a : PyAtom)
  | sequence (tuple : Bool) (items : List PyValue)
  | mapping (items : List (PyValue × PyValue))

/-! ### Texts -/

/-- A character of the alphabet with `+` and `/`. -/
def standardChar (c : Char) : Char := if c = '-' then '+' else if c = '_' then '/' else c

/-- `base64.b64encode`: that alphabet, and padding. -/
def b64encode (bytes : List UInt8) : List Char :=
  (base64 bytes).map standardChar ++ List.replicate ((3 - bytes.length % 3) % 3) '='

/-- An integer in JSON. -/
def jsonInt (n : ℤ) : Json := .number (.ofInt n)

/-- An object with one member. -/
def tagged (tag : String) (body : Json) : Json := .object [(tag.toList, body)]

def DecimalExponent.json : DecimalExponent → Json
  | .finite n => jsonInt n
  | .infinity => .string ['F']
  | .nan => .string ['n']
  | .signallingNan => .string ['N']

/-- The module and the name of the class, the ordinal and the time of day. -/
def jsonMoment (name : String) (date : CivilDate) (hour minute second microsecond : ℕ) : Json :=
  tagged "__datetime__" (.array [.string "datetime".toList, .string name.toList,
    jsonInt date.toOrdinal, jsonInt hour, jsonInt minute, jsonInt second, jsonInt microsecond])

/-- `_jsonable`, of an atom. -/
def PyAtom.json : PyAtom → Json
  | .none => .null
  | .bool b => .bool b
  | .int n => jsonInt n
  | .float x => .number x.repr
  | .str text => .string text
  | .bytes raw => tagged "__bytes__" (.string (b64encode raw))
  | .decimal d => tagged "__decimal__" (.array [jsonInt (if d.negative then 1 else 0),
      .array (d.digits.map fun n : ℕ => jsonInt n), d.exponent.json])
  | .datetime t => jsonMoment "datetime" t.date t.hour t.minute t.second t.microsecond
  | .date d => jsonMoment "date" d 0 0 0 0

mutual

/-- `_jsonable`, of what it returns: there the mappings are the tagged objects. -/
def retag : Json → Json
  | .array items => .array (retagItems items)
  | .object members =>
    tagged "__mapping__" (.array (((retagMembers members).mergeSort fun p q =>
      Json.printString p.1 ≤ Json.printString q.1).map fun p => .array [.string p.1, p.2]))
  | .null => .null
  | .bool b => .bool b
  | .number l => .number l
  | .string text => .string text

def retagItems : List Json → List Json
  | [] => []
  | j :: items => retag j :: retagItems items

def retagMembers : List (List Char × Json) → List (List Char × Json)
  | [] => []
  | (key, j) :: members => (key, retag j) :: retagMembers members

end

/-- `canonical_json(pair[0])` of a pair that `_jsonable` has made. -/
def sortKey (pair : Json × Json) : List Char := (retag pair.1).print

mutual

/-- `_jsonable`. -/
def jsonable : PyValue → Json
  | .atom a => a.json
  | .sequence _ items => .array (jsonableItems items)
  | .mapping items =>
    tagged "__mapping__" (.array (((jsonablePairs items).mergeSort fun p q =>
      sortKey p ≤ sortKey q).map fun p => .array [p.1, p.2]))

def jsonableItems : List PyValue → List Json
  | [] => []
  | v :: items => jsonable v :: jsonableItems items

def jsonablePairs : List (PyValue × PyValue) → List (Json × Json)
  | [] => []
  | (key, v) :: items => (jsonable key, jsonable v) :: jsonablePairs items

end

/-- `canonical_json`. -/
def canonicalJson (v : PyValue) : List Char := (jsonable v).print

/-! ### Equality of values -/

/-- Two values are equal up to the order of mappings and to lists and tuples. -/
inductive PyValue.Same : PyValue → PyValue → Prop
  | atom (a : PyAtom) : Same (.atom a) (.atom a)
  | sequence {tuple tuple' : Bool} {items items' : List PyValue}
      (h : List.Forall₂ Same items items') :
      Same (.sequence tuple items) (.sequence tuple' items')
  | mapping {items mid items' : List (PyValue × PyValue)} (hperm : items.Perm mid)
      (hkeys : List.Forall₂ Same (mid.map Prod.fst) (items'.map Prod.fst))
      (hvalues : List.Forall₂ Same (mid.map Prod.snd) (items'.map Prod.snd)) :
      Same (.mapping items) (.mapping items')

/-- The keys of the mappings in a value are distinct, also of those inside of keys and values. In
Python this is so of every dictionary; here a mapping is a list of pairs. -/
inductive PyValue.DistinctKeys : PyValue → Prop
  | atom (a : PyAtom) : DistinctKeys (.atom a)
  | sequence {tuple : Bool} {items : List PyValue} (h : ∀ v ∈ items, DistinctKeys v) :
      DistinctKeys (.sequence tuple items)
  | mapping {items : List (PyValue × PyValue)} (hkeys : ∀ p ∈ items, DistinctKeys p.1)
      (hvalues : ∀ p ∈ items, DistinctKeys p.2)
      (hdistinct : items.Pairwise fun p q => ¬Same p.1 q.1) : DistinctKeys (.mapping items)

/-! ### Atoms -/

section Atoms

/-- A character of the other alphabet. -/
def urlsafeChar (c : Char) : Char := if c = '+' then '-' else if c = '/' then '_' else c

theorem urlsafeChar_standardChar {c : Char} (hplus : c ≠ '+') (hslash : c ≠ '/') :
    urlsafeChar (standardChar c) = c := by
  unfold standardChar urlsafeChar
  split_ifs <;> simp_all

theorem standardChar_ne {c : Char} (h : c ≠ '=') : standardChar c ≠ '=' := by
  unfold standardChar
  split_ifs
  · decide
  · decide
  · exact h

theorem b64encode_injective : Function.Injective b64encode := by
  intro bytes bytes' h
  have hback (bytes : List UInt8) :
      ((b64encode bytes).filter (· ≠ '=')).map urlsafeChar = base64 bytes := by
    have hne {c d : Char} (hd : d ∉ base64Alphabet) (hc : c ∈ base64 bytes) : c ≠ d := by
      rintro rfl
      exact notMem_base64 hd bytes hc
    have hpadding (n : ℕ) : (List.replicate n '=').filter (· ≠ '=') = [] := by
      simp
    have hkept : ((base64 bytes).map standardChar).filter (· ≠ '=') =
        (base64 bytes).map standardChar := by
      refine List.filter_eq_self.2 fun d hd => ?_
      obtain ⟨c, hc, rfl⟩ := List.mem_map.1 hd
      exact decide_eq_true (standardChar_ne (hne (by decide) hc))
    rw [b64encode, List.filter_append, hpadding, List.append_nil, hkept, List.map_map]
    conv_rhs => rw [← List.map_id (base64 bytes)]
    exact List.map_congr_left fun c hc => urlsafeChar_standardChar
      (hne (by decide) hc) (hne (by decide) hc)
  have hbase := hback bytes
  rw [h, hback bytes'] at hbase
  exact (base64_inj hbase).symm

theorem jsonInt_injective : Function.Injective jsonInt := by
  intro n m h
  rw [jsonInt, jsonInt, Json.number.injEq] at h
  exact NumberLiteral.ofInt_injective h

theorem jsonNat_injective : Function.Injective fun n : ℕ => jsonInt n := by
  intro n m h
  exact Int.ofNat.inj (jsonInt_injective h)

theorem jsonExponent_injective : Function.Injective DecimalExponent.json := by
  intro e e' h
  cases e <;> cases e' <;> simp_all [DecimalExponent.json, jsonInt]
  exact NumberLiteral.ofInt_injective h

theorem ofInt_ne_repr (n : ℤ) (x : Binary64) : NumberLiteral.ofInt n ≠ x.repr := by
  intro h
  have hinteger := NumberLiteral.isInteger_ofInt n
  rw [h, x.isInteger_repr] at hinteger
  cases hinteger

theorem tagged_inj {tag tag' : String} {body body' : Json} :
    tagged tag body = tagged tag' body' ↔ tag = tag' ∧ body = body' := by
  rw [tagged, tagged, Json.object.injEq, List.cons.injEq, Prod.mk.injEq, String.toList_inj]
  exact and_iff_left rfl

theorem jsonMoment_inj {name name' : String} {date date' : CivilDate}
    {hour hour' minute minute' second second' microsecond microsecond' : ℕ} :
    jsonMoment name date hour minute second microsecond =
      jsonMoment name' date' hour' minute' second' microsecond' ↔
    name = name' ∧ date = date' ∧ hour = hour' ∧ minute = minute' ∧ second = second' ∧
      microsecond = microsecond' := by
  rw [jsonMoment, jsonMoment, tagged_inj]
  simp only [true_and, Json.array.injEq, List.cons.injEq, Json.string.injEq, String.toList_inj,
    and_true, jsonNat_injective.eq_iff, CivilDate.toOrdinal_injective.eq_iff]

/-- **An atom is determined by its JSON form.** -/
theorem PyAtom.json_injective : Function.Injective PyAtom.json := by
  intro a b h
  cases a <;> cases b
  case none.none => rfl
  case bool.bool => exact congrArg PyAtom.bool (Json.bool.inj h)
  case int.int => exact congrArg PyAtom.int (jsonInt_injective h)
  case float.float =>
    exact congrArg PyAtom.float (Binary64.repr_injective (Json.number.inj h))
  case int.float => exact absurd (Json.number.inj h) (ofInt_ne_repr _ _)
  case float.int => exact absurd (Json.number.inj h).symm (ofInt_ne_repr _ _)
  case str.str => exact congrArg PyAtom.str (Json.string.inj h)
  case bytes.bytes =>
    exact congrArg PyAtom.bytes (b64encode_injective (Json.string.inj (tagged_inj.1 h).2))
  case decimal.decimal d d' =>
    obtain ⟨negative, digits, exponent⟩ := d
    obtain ⟨negative', digits', exponent'⟩ := d'
    have hbody := Json.array.inj (tagged_inj.1 h).2
    simp only [List.cons.injEq, and_true, jsonInt_injective.eq_iff, Json.array.injEq,
      (List.map_injective_iff.2 jsonNat_injective).eq_iff, jsonExponent_injective.eq_iff] at hbody
    obtain ⟨hsign, rfl, rfl⟩ := hbody
    cases negative <;> cases negative' <;> first | rfl | cases hsign
  case datetime.datetime t t' =>
    obtain ⟨-, hdate, hhour, hminute, hsecond, hmicrosecond⟩ := jsonMoment_inj.1 h
    exact congrArg PyAtom.datetime (PyDatetime.ext hdate (Fin.ext hhour) (Fin.ext hminute)
      (Fin.ext hsecond) (Fin.ext hmicrosecond))
  case date.date =>
    obtain ⟨-, rfl, -⟩ := jsonMoment_inj.1 h
    rfl
  case datetime.date => exact absurd (jsonMoment_inj.1 h).1 (by decide)
  case date.datetime => exact absurd (jsonMoment_inj.1 h).1 (by decide)
  case bytes.decimal | bytes.datetime | bytes.date | decimal.bytes | decimal.datetime |
      decimal.date | datetime.bytes | datetime.decimal | date.bytes | date.decimal =>
    exact absurd (tagged_inj.1 h).1 (by decide)
  -- The forms left over are of different kinds.
  all_goals cases h

end Atoms

/-! ### Values -/

section Values

theorem jsonableItems_eq (items : List PyValue) : jsonableItems items = items.map jsonable := by
  induction items with
  | nil => rfl
  | cons v items ih => rw [jsonableItems, ih, List.map_cons]

theorem jsonablePairs_eq (items : List (PyValue × PyValue)) :
    jsonablePairs items = items.map (Prod.map jsonable jsonable) := by
  induction items with
  | nil => rfl
  | cons p items ih => rw [jsonablePairs, ih, List.map_cons, Prod.map]

theorem retagItems_eq (items : List Json) : retagItems items = items.map retag := by
  induction items with
  | nil => rfl
  | cons j items ih => rw [retagItems, ih, List.map_cons]

/-- Induction over the values inside of a value. -/
theorem PyValue.induct {motive : PyValue → Prop} (atom : ∀ a, motive (.atom a))
    (sequence : ∀ tuple items, (∀ v ∈ items, motive v) → motive (.sequence tuple items))
    (mapping : ∀ items, (∀ p ∈ items, motive p.1 ∧ motive p.2) → motive (.mapping items)) :
    ∀ v, motive v
  | .atom a => atom a
  | .sequence tuple items =>
    sequence tuple items fun v _ => PyValue.induct atom sequence mapping v
  | .mapping items => mapping items fun p _ =>
    ⟨PyValue.induct atom sequence mapping p.1, PyValue.induct atom sequence mapping p.2⟩
  termination_by v => sizeOf v
  decreasing_by
    all_goals simp_wf
    · have := List.sizeOf_lt_of_mem ‹v ∈ items›
      omega
    · have hlt := List.sizeOf_lt_of_mem ‹p ∈ items›
      obtain ⟨key, v⟩ := p
      simp only [Prod.mk.sizeOf_spec] at hlt ⊢
      omega
    · have hlt := List.sizeOf_lt_of_mem ‹p ∈ items›
      obtain ⟨key, v⟩ := p
      simp only [Prod.mk.sizeOf_spec] at hlt ⊢
      omega

/-- Lists with equal images, related item by item. -/
theorem forall₂_of_map_eq {α β γ : Type*} {f : α → γ} {g : β → γ} {R : α → β → Prop} {l : List α}
    {l' : List β} (hR : ∀ a ∈ l, ∀ b, f a = g b → R a b) (h : l.map f = l'.map g) :
    List.Forall₂ R l l' := by
  induction l generalizing l' with
  | nil =>
    rw [List.map_nil, eq_comm, List.map_eq_nil_iff] at h
    rw [h]
    exact .nil
  | cons a l ih =>
    obtain _ | ⟨b, l'⟩ := l'
    · cases h
    · rw [List.map_cons, List.map_cons, List.cons.injEq] at h
      exact .cons (hR a List.mem_cons_self b h.1)
        (ih (fun a' ha' => hR a' (List.mem_cons_of_mem _ ha')) h.2)

/-- Related lists have equal images. -/
theorem map_eq_of_forall₂ {α β γ : Type*} {f : α → γ} {g : β → γ} {R : α → β → Prop} {l : List α}
    {l' : List β} (hR : ∀ a ∈ l, ∀ b ∈ l', R a b → f a = g b) (h : List.Forall₂ R l l') :
    l.map f = l'.map g := by
  induction h with
  | nil => rfl
  | cons hab _ ih =>
    rw [List.map_cons, List.map_cons, hR _ List.mem_cons_self _ List.mem_cons_self hab,
      ih fun a ha b hb => hR a (List.mem_cons_of_mem _ ha) b (List.mem_cons_of_mem _ hb)]

/-- A permutation of an image is the image of a permutation. -/
theorem exists_perm_of_map_perm {α β γ : Type*} {f : α → γ} {g : β → γ} {l : List α} {l' : List β}
    (h : (l.map f).Perm (l'.map g)) : ∃ mid, l.Perm mid ∧ mid.map f = l'.map g := by
  have hrel : List.Forall₂ (fun a c => f a = c) l (l.map f) :=
    forall₂_of_map_eq (fun _ _ _ heq => heq) (List.map_id _).symm
  have hcomp : Relation.Comp (List.Forall₂ fun a c => f a = c) List.Perm l (l'.map g) :=
    ⟨l.map f, hrel, h⟩
  rw [List.forall₂_comp_perm_eq_perm_comp_forall₂] at hcomp
  obtain ⟨mid, hperm, hmid⟩ := hcomp
  refine ⟨mid, hperm, ?_⟩
  rw [← List.map_id (l'.map g)]
  exact map_eq_of_forall₂ (fun _ _ _ _ heq => heq) hmid

/-- The pairs of a mapping, sorted. -/
def sortedPairs (pairs : List (Json × Json)) : List (Json × Json) :=
  pairs.mergeSort fun p q => sortKey p ≤ sortKey q

theorem sortedPairs_perm (pairs : List (Json × Json)) : (sortedPairs pairs).Perm pairs :=
  List.mergeSort_perm pairs _

theorem jsonable_mapping (items : List (PyValue × PyValue)) : jsonable (.mapping items) =
    tagged "__mapping__" (.array ((sortedPairs (items.map (Prod.map jsonable jsonable))).map
      fun p => .array [p.1, p.2])) := by
  rw [jsonable, jsonablePairs_eq, sortedPairs]

theorem pairJson_injective : Function.Injective fun p : Json × Json => Json.array [p.1, p.2] := by
  intro p q h
  rw [Json.array.injEq, List.cons.injEq, List.cons.injEq] at h
  exact Prod.ext h.1 h.2.1

/-- The form of an atom is no array and is not tagged as a mapping. -/
theorem PyAtom.json_ne_array (a : PyAtom) (items : List Json) : a.json ≠ .array items := by
  cases a <;> exact nofun

theorem PyAtom.json_ne_mapping (a : PyAtom) (body : Json) : a.json ≠ tagged "__mapping__" body := by
  intro h
  cases a with
  | bytes _ | decimal _ | datetime _ | date _ => exact absurd (tagged_inj.1 h).1 (by decide)
  | _ => cases h

/-- **Values with equal forms are equal.** -/
theorem same_of_jsonable (v : PyValue) : ∀ {w}, jsonable v = jsonable w → v.Same w := by
  induction v using PyValue.induct with
  | atom a =>
    intro w h
    cases w with
    | atom b =>
      rw [jsonable, jsonable] at h
      rw [PyAtom.json_injective h]
      exact .atom b
    | sequence tuple items =>
      rw [jsonable, jsonable] at h
      exact absurd h (a.json_ne_array _)
    | mapping items =>
      rw [jsonable, jsonable] at h
      exact absurd h (a.json_ne_mapping _)
  | sequence tuple items ih =>
    intro w h
    cases w with
    | atom b =>
      rw [jsonable, jsonable] at h
      exact absurd h.symm (b.json_ne_array _)
    | sequence tuple' items' =>
      rw [jsonable, jsonable, Json.array.injEq, jsonableItems_eq, jsonableItems_eq] at h
      exact .sequence (forall₂_of_map_eq (fun v hv _ heq => ih v hv heq) h)
    | mapping items' =>
      rw [jsonable, jsonable] at h
      cases h
  | mapping items ih =>
    intro w h
    cases w with
    | atom b =>
      rw [jsonable, jsonable] at h
      exact absurd h.symm (b.json_ne_mapping _)
    | sequence tuple items' =>
      rw [jsonable, jsonable] at h
      cases h
    | mapping items' =>
      rw [jsonable_mapping, jsonable_mapping, tagged_inj, Json.array.injEq,
        (List.map_injective_iff.2 pairJson_injective).eq_iff] at h
      have hperm : (items.map (Prod.map jsonable jsonable)).Perm
          (items'.map (Prod.map jsonable jsonable)) := by
        have hsorted := sortedPairs_perm (items.map (Prod.map jsonable jsonable))
        rw [h.2] at hsorted
        exact hsorted.symm.trans (sortedPairs_perm _)
      obtain ⟨mid, hmid, heq⟩ := exists_perm_of_map_perm hperm
      refine .mapping hmid ?_ ?_
      · refine forall₂_of_map_eq (f := jsonable) (g := jsonable) ?_ ?_
        · intro key hkey key' heq'
          obtain ⟨p, hp, rfl⟩ := List.mem_map.1 hkey
          exact (ih p (hmid.mem_iff.2 hp)).1 heq'
        · have hfst := congrArg (List.map Prod.fst) heq
          simpa [Function.comp_def] using hfst
      · refine forall₂_of_map_eq (f := jsonable) (g := jsonable) ?_ ?_
        · intro v hv v' heq'
          obtain ⟨p, hp, rfl⟩ := List.mem_map.1 hv
          exact (ih p (hmid.mem_iff.2 hp)).2 heq'
        · have hsnd := congrArg (List.map Prod.snd) heq
          simpa [Function.comp_def] using hsnd

/-- The numbers are those of integers and floats, and every object has one member, as in what
`_jsonable` returns. -/
inductive Tagged : Json → Prop
  | null : Tagged .null
  | bool (b : Bool) : Tagged (.bool b)
  | int (n : ℤ) : Tagged (jsonInt n)
  | float (x : Binary64) : Tagged (.number x.repr)
  | string (text : List Char) : Tagged (.string text)
  | array {items : List Json} (h : ∀ j ∈ items, Tagged j) : Tagged (.array items)
  | object (tag : List Char) {body : Json} (h : Tagged body) : Tagged (.object [(tag, body)])

theorem retag_object (tag : List Char) (body : Json) : retag (.object [(tag, body)]) =
    tagged "__mapping__" (.array [.array [.string tag, retag body]]) := by
  rw [retag, retagMembers, retagMembers, List.mergeSort_singleton]
  rfl

mutual

/-- What was tagged. -/
def untag : Json → Json
  | .object [(_, .array [.array [.string tag, body]])] => .object [(tag, untag body)]
  | .array items => .array (untagItems items)
  | j => j

def untagItems : List Json → List Json
  | [] => []
  | j :: items => untag j :: untagItems items

end

theorem untagItems_eq (items : List Json) : untagItems items = items.map untag := by
  induction items with
  | nil => rfl
  | cons j items ih => rw [untagItems, ih, List.map_cons]

theorem untag_retag {j : Json} (h : Tagged j) : untag (retag j) = j := by
  induction h with
  | null | bool _ | int _ | float _ | string _ => rfl
  | @array items _ ih =>
    rw [retag, untag, untagItems_eq, retagItems_eq, List.map_map]
    conv_rhs => rw [← List.map_id items]
    exact congrArg Json.array (List.map_congr_left ih)
  | object tag _ ih => rw [retag_object, tagged, untag, ih]

theorem tagged_json (a : PyAtom) : Tagged a.json := by
  have hmoment (name : String) (date : CivilDate) (hour minute second microsecond : ℕ) :
      Tagged (jsonMoment name date hour minute second microsecond) := by
    refine .object _ (.array fun j hj => ?_)
    simp only [List.mem_cons, List.not_mem_nil, or_false] at hj
    rcases hj with rfl | rfl | rfl | rfl | rfl | rfl | rfl
    all_goals first | exact .string _ | exact .int _
  cases a with
  | none => exact .null
  | bool b => exact .bool b
  | int n => exact .int n
  | float x => exact .float x
  | str text => exact .string text
  | bytes raw => exact .object _ (.string _)
  | decimal d =>
    refine .object _ (.array fun j hj => ?_)
    simp only [List.mem_cons, List.not_mem_nil, or_false] at hj
    rcases hj with rfl | rfl | rfl
    · exact .int _
    · refine .array fun j hj => ?_
      obtain ⟨n, -, rfl⟩ := List.mem_map.1 hj
      exact .int n
    · cases d.exponent <;> first | exact .string _ | exact .int _
  | datetime t => exact hmoment _ _ _ _ _ _
  | date d => exact hmoment _ _ _ _ _ _

/-- What `_jsonable` returns has only objects with one member. -/
theorem tagged_jsonable (v : PyValue) : Tagged (jsonable v) := by
  induction v using PyValue.induct with
  | atom a =>
    rw [jsonable]
    exact tagged_json a
  | sequence tuple items ih =>
    rw [jsonable, jsonableItems_eq]
    refine .array fun j hj => ?_
    obtain ⟨v, hv, rfl⟩ := List.mem_map.1 hj
    exact ih v hv
  | mapping items ih =>
    rw [jsonable_mapping]
    refine .object _ (.array fun j hj => ?_)
    obtain ⟨q, hq, rfl⟩ := List.mem_map.1 hj
    obtain ⟨p, hp, rfl⟩ := List.mem_map.1 ((sortedPairs_perm _).mem_iff.1 hq)
    refine .array fun j hj => ?_
    simp only [List.mem_cons, List.not_mem_nil, or_false] at hj
    rcases hj with rfl | rfl
    · exact (ih p hp).1
    · exact (ih p hp).2

mutual

/-- The value that a JSON document stands for. -/
def pyValue : Json → PyValue
  | .null => .atom .none
  | .bool b => .atom (.bool b)
  | .number l =>
    if l.isInteger then .atom (.int l.toInt)
    else .atom ((Binary64.ofLiteral l).elim .none .float)
  | .string text => .atom (.str text)
  | .array items => .sequence false (pyItems items)
  | .object members => .mapping (pyMembers members)

def pyItems : List Json → List PyValue
  | [] => []
  | j :: items => pyValue j :: pyItems items

def pyMembers : List (List Char × Json) → List (PyValue × PyValue)
  | [] => []
  | (key, j) :: members => (.atom (.str key), pyValue j) :: pyMembers members

end

theorem pyItems_eq (items : List Json) : pyItems items = items.map pyValue := by
  induction items with
  | nil => rfl
  | cons j items ih => rw [pyItems, ih, List.map_cons]

/-- `_jsonable` on what it has returned. -/
theorem jsonable_pyValue {j : Json} (h : Tagged j) : jsonable (pyValue j) = retag j := by
  induction h with
  | null | bool _ | string _ => rfl
  | int n =>
    rw [jsonInt, pyValue, if_pos (NumberLiteral.isInteger_ofInt n), NumberLiteral.toInt_ofInt]
    rfl
  | float x =>
    rw [pyValue, if_neg (by simp [x.isInteger_repr]), x.ofLiteral_repr]
    rfl
  | array _ ih =>
    rw [pyValue, jsonable, pyItems_eq, jsonableItems_eq, List.map_map, retag, retagItems_eq]
    exact congrArg Json.array (List.map_congr_left ih)
  | object tag _ ih =>
    rw [pyValue, pyMembers, pyMembers, jsonable_mapping, List.map_singleton, Prod.map, ih,
      retag_object, sortedPairs, List.mergeSort_singleton]
    rfl

/-- The text that a pair is sorted by is the canonical text of its key as `_jsonable` left it. -/
theorem sortKey_eq (v : PyValue) (j : Json) :
    sortKey (jsonable v, j) = canonicalJson (pyValue (jsonable v)) := by
  rw [canonicalJson, jsonable_pyValue (tagged_jsonable v), sortKey]

/-- **The texts that the pairs are sorted by tell their keys apart.** -/
theorem sortKey_inj {v w : PyValue} {j j' : Json}
    (h : sortKey (jsonable v, j) = sortKey (jsonable w, j')) : jsonable v = jsonable w := by
  have hretag : retag (jsonable v) = retag (jsonable w) := Json.print_injective h
  rw [← untag_retag (tagged_jsonable v), hretag, untag_retag (tagged_jsonable w)]

/-- Pairs with distinct keys have one sorted order. -/
theorem sortedPairs_eq {items items' : List (PyValue × PyValue)}
    (hperm : (items.map (Prod.map jsonable jsonable)).Perm
      (items'.map (Prod.map jsonable jsonable)))
    (hdistinct : items'.Pairwise fun p q => ¬p.1.Same q.1) :
    sortedPairs (items.map (Prod.map jsonable jsonable)) =
      sortedPairs (items'.map (Prod.map jsonable jsonable)) := by
  have hsorted (pairs : List (Json × Json)) :
      (sortedPairs pairs).Pairwise fun p q => decide (sortKey p ≤ sortKey q) = true := by
    refine List.pairwise_mergeSort (fun p q r hpq hqr => ?_) (fun p q => ?_) pairs
    · rw [decide_eq_true_eq] at hpq hqr ⊢
      exact hpq.trans hqr
    · rw [Bool.or_eq_true, decide_eq_true_eq, decide_eq_true_eq]
      exact le_total _ _
  have hnodup : (items'.map fun p => jsonable p.1).Nodup :=
    List.pairwise_map.2 (hdistinct.imp fun hne heq => hne (same_of_jsonable _ heq))
  have hback := (sortedPairs_perm (items.map (Prod.map jsonable jsonable))).trans hperm
  have hback' := sortedPairs_perm (items'.map (Prod.map jsonable jsonable))
  refine List.Perm.eq_of_pairwise (fun a b ha hb hab hba => ?_) (hsorted _) (hsorted _)
    (hback.trans hback'.symm)
  obtain ⟨p, hp, rfl⟩ := List.mem_map.1 (hback.mem_iff.1 ha)
  obtain ⟨q, hq, rfl⟩ := List.mem_map.1 (hback'.mem_iff.1 hb)
  rw [decide_eq_true_eq] at hab hba
  have hkey : jsonable p.1 = jsonable q.1 := sortKey_inj (le_antisymm hab hba)
  rw [List.inj_on_of_nodup_map hnodup hp hq hkey]

/-- Equal values have equal forms. -/
theorem jsonable_of_same (v : PyValue) :
    ∀ {w}, w.DistinctKeys → v.Same w → jsonable v = jsonable w := by
  induction v using PyValue.induct with
  | atom a =>
    rintro w - ⟨⟩
    rfl
  | sequence tuple items ih =>
    intro w hw hsame
    cases hsame with
    | sequence hitems =>
      cases hw with
      | sequence hdistinct =>
        rw [jsonable, jsonable, jsonableItems_eq, jsonableItems_eq]
        exact congrArg Json.array (map_eq_of_forall₂
          (fun v hv w hw hvw => ih v hv (hdistinct w hw) hvw) hitems)
  | mapping items ih =>
    intro w hw hsame
    cases hsame with
    | @mapping _ mid items' hperm hkeys hvalues =>
      obtain ⟨hdistinctKeys, hdistinctValues, hdistinct⟩ :
          (∀ p ∈ items', p.1.DistinctKeys) ∧ (∀ p ∈ items', p.2.DistinctKeys) ∧
            items'.Pairwise fun p q => ¬p.1.Same q.1 := by
        cases hw with
        | mapping hkeys hvalues hdistinct => exact ⟨hkeys, hvalues, hdistinct⟩
      have hfst : (mid.map Prod.fst).map jsonable = (items'.map Prod.fst).map jsonable := by
        refine map_eq_of_forall₂ (fun key hkey key' hkey' hsame => ?_) hkeys
        obtain ⟨p, hp, rfl⟩ := List.mem_map.1 hkey
        obtain ⟨p', hp', rfl⟩ := List.mem_map.1 hkey'
        exact (ih p (hperm.mem_iff.2 hp)).1 (hdistinctKeys p' hp') hsame
      have hsnd : (mid.map Prod.snd).map jsonable = (items'.map Prod.snd).map jsonable := by
        refine map_eq_of_forall₂ (fun v hv v' hv' hsame => ?_) hvalues
        obtain ⟨p, hp, rfl⟩ := List.mem_map.1 hv
        obtain ⟨p', hp', rfl⟩ := List.mem_map.1 hv'
        exact (ih p (hperm.mem_iff.2 hp)).2 (hdistinctValues p' hp') hsame
      have hpairs : mid.map (Prod.map jsonable jsonable) =
          items'.map (Prod.map jsonable jsonable) := by
        have hzip (l : List (PyValue × PyValue)) : l.map (Prod.map jsonable jsonable) =
            ((l.map Prod.fst).map jsonable).zip ((l.map Prod.snd).map jsonable) := by
          rw [List.map_map, List.map_map, List.zip_map']
          rfl
        rw [hzip, hzip, hfst, hsnd]
      rw [jsonable_mapping, jsonable_mapping, sortedPairs_eq (hpairs ▸ hperm.map _) hdistinct]

theorem jsonable_eq_iff {v w : PyValue} (hw : w.DistinctKeys) :
    jsonable v = jsonable w ↔ v.Same w :=
  ⟨fun h => same_of_jsonable v h, jsonable_of_same v hw⟩

end Values

/-- **Two values have one text exactly when they are equal**, up to the order of their mappings and
to lists and tuples. -/
theorem canonicalJson_eq_iff {v w : PyValue} (hw : w.DistinctKeys) :
    canonicalJson v = canonicalJson w ↔ v.Same w :=
  Json.print_injective.eq_iff.trans (jsonable_eq_iff hw)

namespace Accounts

/-- The float 1. -/
def floatOne : Binary64 := ⟨false, 2 ^ 52, -52, by decide⟩

/-- Four values that count as equal in Python. -/
def ones (tuple : Bool) : PyValue :=
  .sequence tuple [.atom (.int 1), .atom (.float floatOne), .atom (.bool true),
    .atom (.decimal ⟨false, [1], .finite 0⟩)]

def balanceKey : PyValue := .atom (.str "balance".toList)

def tagsKey : PyValue := .atom (.str "tags".toList)

/-- An image with a mapping whose key is a tag, or with the bytes that are tagged so. -/
def accountImage (balance : PyValue) : PyValue :=
  .mapping [(balanceKey, balance), (tagsKey, ones true)]

/-- The image in another order, with a list in place of the tuple. -/
def accountImage' (balance : PyValue) : PyValue :=
  .mapping [(tagsKey, ones false), (balanceKey, balance)]

def imitation : PyValue :=
  .mapping [(.atom (.str "__bytes__".toList), .atom (.str "AA==".toList))]

theorem distinctKeys_accountImage' : (accountImage' imitation).DistinctKeys := by
  refine .mapping ?_ ?_ (.cons ?_ (List.pairwise_singleton _ _))
  · simp only [List.mem_cons, List.not_mem_nil, or_false]
    rintro p (rfl | rfl) <;> exact .atom _
  · simp only [List.mem_cons, List.not_mem_nil, or_false]
    rintro p (rfl | rfl)
    · refine .sequence fun v hv => ?_
      simp only [List.mem_cons, List.not_mem_nil, or_false] at hv
      rcases hv with rfl | rfl | rfl | rfl <;> exact .atom _
    · refine .mapping ?_ ?_ (List.pairwise_singleton _ _)
      · rintro p hp
        rw [List.mem_singleton.1 hp]
        exact .atom _
      · rintro p hp
        rw [List.mem_singleton.1 hp]
        exact .atom _
  · rintro p hp hsame
    rw [List.mem_singleton.1 hp] at hsame
    cases hsame

theorem same_accountImage : (accountImage imitation).Same (accountImage' imitation) := by
  refine .mapping (.swap _ _ _) (.cons (.atom _) (.cons (.atom _) .nil))
    (.cons (.sequence ?_) (.cons (.mapping (.refl _) ?_ ?_) .nil))
  · exact .cons (.atom _) (.cons (.atom _) (.cons (.atom _) (.cons (.atom _) .nil)))
  · exact .cons (.atom _) .nil
  · exact .cons (.atom _) .nil

/-- The order and the kind of sequence do not matter, and a mapping imitates no bytes. -/
theorem canonicalJson_accountImage :
    canonicalJson (accountImage imitation) = canonicalJson (accountImage' imitation) ∧
      canonicalJson (.atom (.bytes [0])) ≠ canonicalJson imitation := by
  refine ⟨(canonicalJson_eq_iff distinctKeys_accountImage').2 same_accountImage, fun h => ?_⟩
  cases same_of_jsonable _ (Json.print_injective h)

end Accounts

/-! ### Before-images -/

/-- What the refusals of `_verify_before` name. -/
structure BeforeEvent where
  sourceSchema : String
  sourceTable : String
  operation : String
  before : Option PyValue

/-- `scd2._verify_before`. -/
def verifyBefore (event : BeforeEvent) (imageJson : List Char) : Except String Unit :=
  match event.before with
  | none => .error (event.sourceSchema ++ "." ++ event.sourceTable ++ ": " ++ event.operation ++
      " has no before-image for predecessor verification")
  | some before =>
    if imageJson ≠ canonicalJson before then
      .error (event.sourceSchema ++ "." ++ event.sourceTable ++ ": SCD2 " ++ event.operation ++
        " before-image does not match its source-order predecessor")
    else .ok ()

/-- **A before-image passes exactly when it equals the image of the predecessor.** -/
theorem verifyBefore_eq_ok_iff {event : BeforeEvent} {before image : PyValue}
    (hbefore : event.before = some before) (hdistinct : before.DistinctKeys) :
    verifyBefore event (canonicalJson image) = .ok () ↔ image.Same before := by
  simp only [verifyBefore, hbefore]
  rw [← jsonable_eq_iff hdistinct, ← Json.print_injective.eq_iff]
  split_ifs with h
  · exact iff_of_false nofun h
  · exact iff_of_true rfl (not_not.1 h)

end CdcFlight
