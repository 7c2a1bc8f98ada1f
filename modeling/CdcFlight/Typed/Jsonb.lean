import CdcFlight.Identity.CanonicalJson
import CdcFlight.Lib.Checks
import CdcFlight.Lib.JsonMeaning
import CdcFlight.Numeric.Variable

/-!
# JSONB values

`_encode_json` of `typed_value_codec.py` and the JSONB identity of `identity_codec.py`. The encoder
reads a JSON text with the numbers of the language, so that every literal with a fraction or an
exponent goes through a double, and writes it again with sorted keys. The identity is read off the
encoded text with decimals.

Integers of more than 4300 digits have no text in the language and are refused where they are read.
The limit on the depth of a recursion and the limits on the exponents of decimals are left out, and
so are values whose types the encoder refuses.

## Main definitions

* `CdcFlight.LoadedJson`, `CdcFlight.loads`, `CdcFlight.dumps`.
* `CdcFlight.encodeJson`, `CdcFlight.canonicalJsonbIdentity`.
* `CdcFlight.ExactDocument`: the numbers of a document survive.

## Main results

* `CdcFlight.documentIdentity_eq_iff`: the identities of documents are those of their values.
* `CdcFlight.encodeTree_idem`: encoding is idempotent.
* `CdcFlight.encodeJson_iff`: which documents keep their values and identities.
-/

namespace CdcFlight

open Lib

/-! ### Values -/

/-- A `float`. -/
inductive PyFloat
  | finite (x : Binary64)
  | infinity (negative : Bool)
  | nan
deriving DecidableEq

/-- What `json.loads` returns; the keys of a `dict` are distinct. -/
inductive LoadedJson
  | none
  | bool (b : Bool)
  | int (n : ℤ)
  | float (x : PyFloat)
  | decimal (d : PyDecimal)
  | str (text : List Char)
  | list (items : List LoadedJson)
  | dict (items : List (List Char × LoadedJson))

/-- `sys.get_int_max_str_digits()`, which nothing sets. -/
def intMaxStrDigits : ℕ := 4300

/-- An integer that can be read from its text and written. -/
def HasText (n : ℤ) : Prop := DecimalNumber.digits n.natAbs ≤ intMaxStrDigits

instance (n : ℤ) : Decidable (HasText n) := inferInstanceAs (Decidable (_ ≤ _))

/-! ### Reading -/

/-- `int(text)`. -/
def intOfLiteral (l : NumberLiteral) : Option LoadedJson :=
  if HasText l.toInt then some (.int l.toInt) else none

/-- `float(text)`. -/
def floatOfLiteral (l : NumberLiteral) : Option LoadedJson :=
  some (.float (((Binary64.ofLiteral l).map PyFloat.finite).getD (.infinity l.negative)))

/-- `Decimal(text)`. -/
def decimalOfLiteral (l : NumberLiteral) : Option LoadedJson :=
  some (.decimal (.finite l.toDecimal))

section Loads

variable (parseInt parseFloat : NumberLiteral → Option LoadedJson)

mutual

/-- `json.loads`; `none` is a `ValueError`. -/
def loads : Json → Option LoadedJson
  | .null => some .none
  | .bool b => some (.bool b)
  | .number l => if l.isInteger then parseInt l else parseFloat l
  | .string text => some (.str text)
  | .array items => (loadsItems items).map .list
  | .object members => (loadsMembers members).map fun pairs => .dict (Dict.ofPairs pairs).items

def loadsItems : List Json → Option (List LoadedJson)
  | [] => some []
  | j :: items => do
    let v ← loads j
    let vs ← loadsItems items
    return v :: vs

def loadsMembers : List (List Char × Json) → Option (List (List Char × LoadedJson))
  | [] => some []
  | (key, j) :: members => do
    let v ← loads j
    let pairs ← loadsMembers members
    return (key, v) :: pairs

end

end Loads

/-- `json.loads(text)`. -/
def loadsPlain (j : Json) : Option LoadedJson := loads intOfLiteral floatOfLiteral j

/-- `json.loads(text, parse_int=Decimal, parse_float=Decimal)`. -/
def loadsDecimal (j : Json) : Option LoadedJson := loads decimalOfLiteral decimalOfLiteral j

/-! ### Writing -/

mutual

/-- `json.dumps` without NaN, as a document; `none` is a `ValueError` or a `TypeError`. -/
def dumps (sortKeys : Bool) : LoadedJson → Option Json
  | .none => some .null
  | .bool b => some (.bool b)
  | .int n => if HasText n then some (jsonInt n) else none
  | .float (.finite x) => some (.number x.repr)
  | .float _ => none
  | .decimal _ => none
  | .str text => some (.string text)
  | .list items => (dumpsItems sortKeys items).map .array
  | .dict items => (dumpsMembers sortKeys items).map fun members =>
    .object (if sortKeys then sortByKey members else members)

def dumpsItems (sortKeys : Bool) : List LoadedJson → Option (List Json)
  | [] => some []
  | v :: items => do
    let j ← dumps sortKeys v
    let js ← dumpsItems sortKeys items
    return j :: js

def dumpsMembers (sortKeys : Bool) :
    List (List Char × LoadedJson) → Option (List (List Char × Json))
  | [] => some []
  | (key, v) :: items => do
    let j ← dumps sortKeys v
    let members ← dumpsMembers sortKeys items
    return (key, j) :: members

end

/-! ### The encoder -/

/-- A value of a JSON column: the JSONB null, or a tree, of which a text is one to be parsed. -/
inductive JsonbValue
  | jsonbNull
  | tree (v : LoadedJson)

/-- `_value_type`. -/
def LoadedJson.valueType : LoadedJson → String
  | .none => "builtins.NoneType"
  | .bool _ => "builtins.bool"
  | .int _ => "builtins.int"
  | .float _ => "builtins.float"
  | .decimal _ => "decimal.Decimal"
  | .str _ => "builtins.str"
  | .list _ => "builtins.list"
  | .dict _ => "builtins.dict"

def JsonbValue.valueType : JsonbValue → String
  | .jsonbNull => "cdc_flight.typed_types.JsonbNull"
  | .tree v => v.valueType

/-- The text of the `InvalidTypedValue`. -/
def jsonRefusal (jsonb : Bool) (value : JsonbValue) : String :=
  "value of type " ++ value.valueType ++ " is not valid PostgreSQL " ++
    (if jsonb then "jsonb" else "json") ++ " JSON"

/-- What `_encode_json` returns of a parsed value. -/
def encodeParsed (jsonb : Bool) (parsed : LoadedJson) : Option JsonbValue :=
  match jsonb, parsed with
  | true, .none => some .jsonbNull
  | _, _ => (dumps jsonb parsed).map fun j => .tree (.str j.print)

/-- `_encode_json`. -/
def encodeJson (jsonb : Bool) (value : JsonbValue) : Except String JsonbValue :=
  let encoded : Option JsonbValue :=
    match value with
    | .jsonbNull => if jsonb then some .jsonbNull else none
    | .tree (.str text) => do
      let j ← Json.parse text
      let parsed ← loadsPlain j
      if jsonb then encodeParsed true parsed else some value
    | .tree v => encodeParsed jsonb v
  encoded.elim (.error (jsonRefusal jsonb value)) .ok

/-! ### The identity -/

/-- What the identity fails with: a `JSONDecodeError`, or the text of a `ValueError`. -/
inductive JsonbError
  | decode
  | value (text : String)
deriving DecidableEq

/-- `_canonical_decimal_text`, of the numbers. -/
def canonicalNumberText (v : LoadedJson) : Except JsonbError (List Char) :=
  let notFinite : JsonbError :=
    .value ("value of type " ++ v.valueType ++ " is not a finite number")
  let notNumber : JsonbError := .value ("value of type " ++ v.valueType ++ " is not a number")
  match v with
  | .decimal (.finite d) => .ok (canonicalDecimalText d)
  | .decimal (.special _) => .error notFinite
  | .float (.finite x) => .ok (canonicalDecimalText x.repr.toDecimal)
  | .float _ => .error notFinite
  | .int n => if HasText n then .ok (canonicalDecimalText (.ofInt n)) else .error notNumber
  | _ => .error notNumber

/-- The members of an object in its identity. -/
def identityObject (items : List (List Char × Json)) : Json :=
  tagged "object" (.array ((sortByKey items).map fun p => .array [.string p.1, p.2]))

mutual

/-- `_jsonb_identity`. -/
def jsonbIdentity : LoadedJson → Except JsonbError Json
  | .none => .ok (tagged "null" (.bool true))
  | .bool b => .ok (tagged "boolean" (.bool b))
  | .str text => .ok (tagged "string" (.string text))
  | .dict items => (jsonbIdentityMembers items).map identityObject
  | .list items => (jsonbIdentityItems items).map fun ids => tagged "array" (.array ids)
  | .int n => (canonicalNumberText (.int n)).map fun text => tagged "number" (.string text)
  | .float x => (canonicalNumberText (.float x)).map fun text => tagged "number" (.string text)
  | .decimal d => (canonicalNumberText (.decimal d)).map fun text => tagged "number" (.string text)

def jsonbIdentityItems : List LoadedJson → Except JsonbError (List Json)
  | [] => .ok []
  | v :: items => do
    let id ← jsonbIdentity v
    let ids ← jsonbIdentityItems items
    return id :: ids

def jsonbIdentityMembers :
    List (List Char × LoadedJson) → Except JsonbError (List (List Char × Json))
  | [] => .ok []
  | (key, v) :: items => do
    let id ← jsonbIdentity v
    let members ← jsonbIdentityMembers items
    return (key, id) :: members

end

/-- `_jsonb_parse`. -/
def jsonbParse : JsonbValue → Except JsonbError LoadedJson
  | .jsonbNull => .ok .none
  | .tree (.str text) =>
    match (Json.parse text).bind loadsDecimal with
    | some v => .ok v
    | none => .error .decode
  | .tree v => .ok v

/-- `canonical_jsonb_identity`. -/
def canonicalJsonbIdentity (value : JsonbValue) : Except JsonbError Json := do
  let parsed ← jsonbParse value
  jsonbIdentity parsed

/-! ### Traversals -/

section Traversals

variable {parseInt parseFloat : NumberLiteral → Option LoadedJson}

attribute [local simp] loads loadsItems loadsMembers dumps dumpsItems dumpsMembers jsonbIdentity
  jsonbIdentityItems jsonbIdentityMembers

theorem loadsItems_eq_some {items : List Json} {vs : List LoadedJson} :
    loadsItems parseInt parseFloat items = some vs ↔
      List.Forall₂ (fun j v => loads parseInt parseFloat j = some v) items vs := by
  induction items generalizing vs with
  | nil => simp [loadsItems, eq_comm]
  | cons j items ih =>
    simp [loadsItems, Option.bind_eq_some_iff, List.forall₂_cons_left_iff, ← ih, eq_comm (a := vs)]

theorem loadsMembers_eq_some {members : List (List Char × Json)}
    {pairs : List (List Char × LoadedJson)} :
    loadsMembers parseInt parseFloat members = some pairs ↔
      ValuesRel (fun j v => loads parseInt parseFloat j = some v) members pairs := by
  induction members generalizing pairs with
  | nil => simp [loadsMembers, ValuesRel, eq_comm]
  | cons p members ih =>
    simp only [loadsMembers, ValuesRel, List.forall₂_cons_left_iff] at ih ⊢
    simp [Option.bind_eq_some_iff, ← ih, eq_comm (a := pairs)]

theorem dumpsItems_eq_some {sortKeys : Bool} {items : List LoadedJson} {outs : List Json} :
    dumpsItems sortKeys items = some outs ↔
      List.Forall₂ (fun v o => dumps sortKeys v = some o) items outs := by
  induction items generalizing outs with
  | nil => simp [dumpsItems, eq_comm]
  | cons v items ih =>
    simp [dumpsItems, Option.bind_eq_some_iff, List.forall₂_cons_left_iff, ← ih,
      eq_comm (a := outs)]

theorem dumpsMembers_eq_some {sortKeys : Bool} {items : List (List Char × LoadedJson)}
    {outs : List (List Char × Json)} :
    dumpsMembers sortKeys items = some outs ↔
      ValuesRel (fun v o => dumps sortKeys v = some o) items outs := by
  induction items generalizing outs with
  | nil => simp [dumpsMembers, ValuesRel, eq_comm]
  | cons p items ih =>
    simp only [dumpsMembers, ValuesRel, List.forall₂_cons_left_iff] at ih ⊢
    simp [Option.bind_eq_some_iff, ← ih, eq_comm (a := outs)]

theorem jsonbIdentityItems_eq_ok {items : List LoadedJson} {ids : List Json} :
    jsonbIdentityItems items = .ok ids ↔
      List.Forall₂ (fun v id => jsonbIdentity v = .ok id) items ids := by
  induction items generalizing ids with
  | nil => simp [jsonbIdentityItems, eq_comm]
  | cons v items ih =>
    simp [jsonbIdentityItems, except_bind_eq_ok, pure, Except.pure, List.forall₂_cons_left_iff,
      ← ih, eq_comm (a := ids)]

theorem jsonbIdentityMembers_eq_ok {items : List (List Char × LoadedJson)}
    {members : List (List Char × Json)} :
    jsonbIdentityMembers items = .ok members ↔
      ValuesRel (fun v id => jsonbIdentity v = .ok id) items members := by
  induction items generalizing members with
  | nil => simp [jsonbIdentityMembers, ValuesRel, eq_comm]
  | cons p items ih =>
    simp only [jsonbIdentityMembers, ValuesRel, List.forall₂_cons_left_iff] at ih ⊢
    simp [except_bind_eq_ok, pure, Except.pure, ← ih, eq_comm (a := members)]

end Traversals

/-! ### Identities -/

section Identities

/-- The identity of a document. -/
def HasIdentity (j id : Json) : Prop := ∃ v, loadsDecimal j = some v ∧ jsonbIdentity v = .ok id

theorem hasIdentity_null {id : Json} :
    HasIdentity .null id ↔ id = tagged "null" (.bool true) := by
  simp [HasIdentity, loadsDecimal, loads, jsonbIdentity, eq_comm]

theorem hasIdentity_bool {b : Bool} {id : Json} :
    HasIdentity (.bool b) id ↔ id = tagged "boolean" (.bool b) := by
  simp [HasIdentity, loadsDecimal, loads, jsonbIdentity, eq_comm]

theorem hasIdentity_string {text : List Char} {id : Json} :
    HasIdentity (.string text) id ↔ id = tagged "string" (.string text) := by
  simp [HasIdentity, loadsDecimal, loads, jsonbIdentity, eq_comm]

theorem hasIdentity_number {l : NumberLiteral} {id : Json} :
    HasIdentity (.number l) id ↔ id = tagged "number" (.string l.toDecimal.plainText) := by
  have hloads : loadsDecimal (.number l) = some (.decimal (.finite l.toDecimal)) := by
    rw [loadsDecimal, loads, ite_self, decimalOfLiteral]
  have hidentity : jsonbIdentity (.decimal (.finite l.toDecimal)) =
      .ok (tagged "number" (.string l.toDecimal.plainText)) := by
    rw [jsonbIdentity, canonicalNumberText, canonicalDecimalText_eq]
    rfl
  constructor
  · rintro ⟨v, hv, hid⟩
    rw [hloads, Option.some.injEq] at hv
    rw [← hv, hidentity] at hid
    exact (Except.ok.inj hid).symm
  · rintro rfl
    exact ⟨_, hloads, hidentity⟩

theorem hasIdentity_array {items : List Json} {id : Json} :
    HasIdentity (.array items) id ↔
      ∃ ids, id = tagged "array" (.array ids) ∧ List.Forall₂ HasIdentity items ids := by
  have hcomp {ids : List Json} : List.Forall₂ HasIdentity items ids ↔
      ∃ vs, loadsItems decimalOfLiteral decimalOfLiteral items = some vs ∧
        jsonbIdentityItems vs = .ok ids := by
    simp only [loadsItems_eq_some, jsonbIdentityItems_eq_ok]
    exact forall₂_comp_iff
  simp only [hcomp]
  constructor
  · rintro ⟨v, hv, hid⟩
    rw [loadsDecimal, loads] at hv
    obtain ⟨vs, hvs, rfl⟩ := Option.map_eq_some_iff.1 hv
    rw [jsonbIdentity] at hid
    cases hids : jsonbIdentityItems vs with
    | error e => simp [hids, Except.map] at hid
    | ok ids =>
      rw [hids] at hid
      exact ⟨ids, (Except.ok.inj hid).symm, vs, hvs, hids⟩
  · rintro ⟨ids, rfl, vs, hvs, hids⟩
    refine ⟨.list vs, ?_, ?_⟩
    · rw [loadsDecimal, loads, hvs, Option.map_some]
    · rw [jsonbIdentity, hids]
      rfl

/-- The identity of an object has the identities of what its keys hold. -/
theorem hasIdentity_object {members : List (List Char × Json)} {id : Json}
    (h : HasIdentity (.object members) id) :
    ∃ ids : List (List Char × Json),
      id = tagged "object" (.array (ids.map fun p => .array [.string p.1, p.2])) ∧
      (ids.Pairwise fun p q => p.1 < q.1) ∧
      ∀ key, Option.Rel HasIdentity (lastValue members key) (lastValue ids key) := by
  obtain ⟨v, hv, hid⟩ := h
  rw [loadsDecimal, loads] at hv
  obtain ⟨pairs, hpairs, rfl⟩ := Option.map_eq_some_iff.1 hv
  rw [jsonbIdentity] at hid
  cases hids : jsonbIdentityMembers (Dict.ofPairs pairs).items with
  | error e => simp [hids, Except.map] at hid
  | ok ids =>
    rw [hids] at hid
    obtain ⟨hsorted, hlookup⟩ := sortByKey_valuesRel (loadsMembers_eq_some.1 hpairs)
      (jsonbIdentityMembers_eq_ok.1 hids)
    exact ⟨sortByKey ids, (Except.ok.inj hid).symm, hsorted, hlookup⟩

theorem exists_hasIdentity_object {members : List (List Char × Json)}
    (h : ∀ p ∈ members, ∃ id, HasIdentity p.2 id) : ∃ id, HasIdentity (.object members) id := by
  obtain ⟨pairs, hpairs⟩ := (exists_valuesRel_iff (R := fun j v => loadsDecimal j = some v)).2
    fun p hp =>
      let ⟨_, v, hv, _⟩ := h p hp
      ⟨v, hv⟩
  obtain ⟨ids, hids⟩ := exists_valuesRel_ofPairs (S := fun v id => jsonbIdentity v = .ok id) hpairs
    fun key j v hj hv => by
      obtain ⟨id, v', hv', hid⟩ := h (key, j) (mem_of_lastValue hj)
      rw [hv, Option.some.injEq] at hv'
      exact ⟨id, hv' ▸ hid⟩
  refine ⟨identityObject ids, .dict (Dict.ofPairs pairs).items, ?_, ?_⟩
  · rw [loadsDecimal, loads, loadsMembers_eq_some.2 hpairs, Option.map_some]
  · rw [jsonbIdentity, jsonbIdentityMembers_eq_ok.2 hids]
    rfl

/-- Every document has an identity. -/
theorem exists_hasIdentity (j : Json) : ∃ id, HasIdentity j id := by
  induction j using Json.induct with
  | null => exact ⟨_, hasIdentity_null.2 rfl⟩
  | bool b => exact ⟨_, hasIdentity_bool.2 rfl⟩
  | number l => exact ⟨_, hasIdentity_number.2 rfl⟩
  | string text => exact ⟨_, hasIdentity_string.2 rfl⟩
  | array items ih =>
    obtain ⟨ids, hids⟩ := exists_forall₂_iff.2 ih
    exact ⟨_, hasIdentity_array.2 ⟨ids, rfl, hids⟩⟩
  | object members ih => exact exists_hasIdentity_object ih

/-- The identity objects of sorted members. -/
theorem identityMembers_inj {ids ids' : List (List Char × Json)}
    (h : ids.map (fun p => Json.array [.string p.1, p.2]) =
      ids'.map fun p => Json.array [.string p.1, p.2]) : ids = ids' := by
  refine List.map_injective_iff.2 ?_ h
  intro p q hpq
  rw [Json.array.injEq, List.cons.injEq, List.cons.injEq, Json.string.injEq] at hpq
  exact Prod.ext hpq.1 hpq.2.1

/-- The tag of an identity. -/
def identityTag : JsonMeaning → String
  | .null => "null"
  | .bool _ => "boolean"
  | .number _ => "number"
  | .string _ => "string"
  | .array _ => "array"
  | .object _ => "object"

theorem HasIdentity.tagged {j id : Json} (h : HasIdentity j id) :
    ∃ body, id = tagged (identityTag j.meaning) body := by
  cases j with
  | null => exact ⟨_, hasIdentity_null.1 h⟩
  | bool b => exact ⟨_, hasIdentity_bool.1 h⟩
  | number l => exact ⟨_, hasIdentity_number.1 h⟩
  | string text => exact ⟨_, hasIdentity_string.1 h⟩
  | array items =>
    obtain ⟨ids, rfl, -⟩ := hasIdentity_array.1 h
    exact ⟨_, rfl⟩
  | object members =>
    obtain ⟨ids, rfl, -⟩ := hasIdentity_object h
    exact ⟨_, rfl⟩

/-- Documents of different kinds are told apart. -/
theorem hasIdentity_eq_iff_of_ne {j j' id id' : Json}
    (hne : identityTag j.meaning ≠ identityTag j'.meaning) (h : HasIdentity j id)
    (h' : HasIdentity j' id') : id = id' ↔ j.meaning = j'.meaning := by
  obtain ⟨body, rfl⟩ := h.tagged
  obtain ⟨body', rfl⟩ := h'.tagged
  rw [tagged_inj]
  exact iff_of_false (fun heq => hne heq.1) fun heq => hne (congrArg identityTag heq)

/-- Identities of a document are equal to those of another as the values are. -/
def IdentityDecides (j : Json) : Prop := ∀ {j' id id' : Json}, HasIdentity j id →
  HasIdentity j' id' → (id = id' ↔ j.meaning = j'.meaning)

theorem identityDecides_items {items items' ids ids' : List Json}
    (hitems : ∀ j ∈ items, IdentityDecides j) (h : List.Forall₂ HasIdentity items ids)
    (h' : List.Forall₂ HasIdentity items' ids') :
    ids = ids' ↔ items.map Json.meaning = items'.map Json.meaning := by
  induction h generalizing items' ids' with
  | nil =>
    cases h' with
    | nil => exact iff_of_true rfl rfl
    | cons => exact iff_of_false nofun nofun
  | cons hj _ ih =>
    cases h' with
    | nil => exact iff_of_false nofun nofun
    | cons hj' htail =>
      rw [List.cons.injEq, List.map_cons, List.map_cons, List.cons.injEq,
        hitems _ List.mem_cons_self hj hj',
        ih (fun j hmem => hitems j (List.mem_cons_of_mem _ hmem)) htail]

theorem identityDecides_value {a a' b b' : Option Json} (ha : ∀ j ∈ a, IdentityDecides j)
    (h : Option.Rel HasIdentity a b) (h' : Option.Rel HasIdentity a' b') :
    b = b' ↔ a.map Json.meaning = a'.map Json.meaning := by
  cases h with
  | none =>
    cases h' with
    | none => exact iff_of_true rfl rfl
    | some => exact iff_of_false nofun nofun
  | some hj =>
    cases h' with
    | none => exact iff_of_false nofun nofun
    | some hj' =>
      rw [Option.some.injEq, Option.map_some, Option.map_some, Option.some.injEq]
      exact ha _ rfl hj hj'

theorem identityDecides_object {members : List (List Char × Json)}
    (hmembers : ∀ p ∈ members, IdentityDecides p.2) : IdentityDecides (.object members) := by
  intro j' id id' h h'
  cases j' with
  | object members' =>
    obtain ⟨ids, rfl, hsorted, hvalues⟩ := hasIdentity_object h
    obtain ⟨ids', rfl, hsorted', hvalues'⟩ := hasIdentity_object h'
    have hvalue (key : List Char) : lastValue ids key = lastValue ids' key ↔
        (lastValue members key).map Json.meaning = (lastValue members' key).map Json.meaning :=
      identityDecides_value (fun j hj => hmembers (key, j) (mem_of_lastValue hj)) (hvalues key)
        (hvalues' key)
    rw [Json.meaning_object_eq_iff, ← forall_congr' hvalue, tagged_inj, Json.array.injEq]
    constructor
    · rintro ⟨-, heq⟩ key
      rw [identityMembers_inj heq]
    · intro heq
      rw [eq_of_lastValue_eq hsorted hsorted' heq]
      exact ⟨rfl, rfl⟩
  | _ => exact hasIdentity_eq_iff_of_ne (by simp [Json.meaning, identityTag]) h h'

/-- **The identities of documents are those of their values.** -/
theorem identityDecides (j : Json) : IdentityDecides j := by
  induction j using Json.induct with
  | null =>
    intro j' id id' h h'
    cases j' with
    | null => exact iff_of_true ((hasIdentity_null.1 h).trans (hasIdentity_null.1 h').symm) rfl
    | _ => exact hasIdentity_eq_iff_of_ne (by simp [Json.meaning, identityTag]) h h'
  | bool b =>
    intro j' id id' h h'
    cases j' with
    | bool b' =>
      rw [hasIdentity_bool.1 h, hasIdentity_bool.1 h', tagged_inj]
      simp [Json.meaning]
    | _ => exact hasIdentity_eq_iff_of_ne (by simp [Json.meaning, identityTag]) h h'
  | number l =>
    intro j' id id' h h'
    cases j' with
    | number l' =>
      rw [hasIdentity_number.1 h, hasIdentity_number.1 h', tagged_inj]
      simp [Json.meaning, DecimalNumber.plainText_eq_iff]
    | _ => exact hasIdentity_eq_iff_of_ne (by simp [Json.meaning, identityTag]) h h'
  | string text =>
    intro j' id id' h h'
    cases j' with
    | string text' =>
      rw [hasIdentity_string.1 h, hasIdentity_string.1 h', tagged_inj]
      simp [Json.meaning]
    | _ => exact hasIdentity_eq_iff_of_ne (by simp [Json.meaning, identityTag]) h h'
  | array items ih =>
    intro j' id id' h h'
    cases j' with
    | array items' =>
      obtain ⟨ids, rfl, hids⟩ := hasIdentity_array.1 h
      obtain ⟨ids', rfl, hids'⟩ := hasIdentity_array.1 h'
      rw [tagged_inj, Json.array.injEq, Json.meaning_array, Json.meaning_array,
        JsonMeaning.array.injEq, identityDecides_items ih hids hids']
      exact and_iff_right rfl
    | _ => exact hasIdentity_eq_iff_of_ne (by simp [Json.meaning, identityTag]) h h'
  | object members ih => exact identityDecides_object ih

end Identities

/-! ### Encoded documents -/

section Encoded

/-- The document that the text of a JSONB value has. -/
def encodeTree (j : Json) : Option Json := (loadsPlain j).bind (dumps true)

/-- The integers of a document can be read. -/
def ReadableDocument (j : Json) : Prop :=
  ∀ l : NumberLiteral, l.isInteger = true → Json.Holds l j → HasText l.toInt

/-- A literal whose double is written with the same value. -/
def FloatExact (l : NumberLiteral) : Prop :=
  ∃ x, Binary64.ofLiteral l = some x ∧ x.repr.toDecimal.value = l.toDecimal.value

/-- The numbers of a document survive: its integers can be read, and the doubles of the other
numbers that it keeps have their values. -/
def ExactDocument (j : Json) : Prop :=
  ReadableDocument j ∧
    ∀ l : NumberLiteral, l.isInteger = false → Json.Keeps l j → FloatExact l

theorem readableDocument_array {items : List Json} :
    ReadableDocument (.array items) ↔ ∀ j ∈ items, ReadableDocument j := by
  constructor
  · intro h j hj l hl hholds
    exact h l hl (.array hj hholds)
  · intro h l hl hholds
    obtain _ | ⟨hj, hholds⟩ | _ := hholds
    exact h _ hj l hl hholds

theorem readableDocument_object {members : List (List Char × Json)} :
    ReadableDocument (.object members) ↔ ∀ p ∈ members, ReadableDocument p.2 := by
  constructor
  · intro h p hp l hl hholds
    exact h l hl (.object hp hholds)
  · intro h l hl hholds
    obtain _ | _ | ⟨hp, hholds⟩ := hholds
    exact h _ hp l hl hholds

/-- **What can be read.** -/
theorem exists_loadsPlain_iff (j : Json) : (∃ v, loadsPlain j = some v) ↔ ReadableDocument j := by
  induction j using Json.induct with
  | null => exact iff_of_true ⟨_, rfl⟩ nofun
  | bool b => exact iff_of_true ⟨_, rfl⟩ nofun
  | string text => exact iff_of_true ⟨_, rfl⟩ nofun
  | number l =>
    have hreadable : ReadableDocument (.number l) ↔ (l.isInteger = true → HasText l.toInt) := by
      constructor
      · exact fun h hl => h l hl .number
      · rintro h _ hl ⟨⟩
        exact h hl
    rw [hreadable, loadsPlain, loads, intOfLiteral, floatOfLiteral]
    split_ifs with hl htext
    · exact iff_of_true ⟨_, rfl⟩ fun _ => htext
    · exact iff_of_false nofun fun h => htext (h hl)
    · exact iff_of_true ⟨_, rfl⟩ fun h => absurd h hl
  | array items ih =>
    rw [readableDocument_array, ← forall₂_congr ih, ← exists_forall₂_iff]
    constructor
    · rintro ⟨v, hv⟩
      obtain ⟨vs, hvs, -⟩ := Option.map_eq_some_iff.1 hv
      exact ⟨vs, loadsItems_eq_some.1 hvs⟩
    · rintro ⟨vs, hvs⟩
      exact ⟨.list vs, Option.map_eq_some_iff.2 ⟨vs, loadsItems_eq_some.2 hvs, rfl⟩⟩
  | object members ih =>
    rw [readableDocument_object, ← forall₂_congr ih,
      ← exists_valuesRel_iff (R := fun j v => loadsPlain j = some v)]
    constructor
    · rintro ⟨v, hv⟩
      obtain ⟨pairs, hpairs, -⟩ := Option.map_eq_some_iff.1 hv
      exact ⟨pairs, loadsMembers_eq_some.1 hpairs⟩
    · rintro ⟨pairs, hpairs⟩
      exact ⟨.dict (Dict.ofPairs pairs).items,
        Option.map_eq_some_iff.2 ⟨pairs, loadsMembers_eq_some.2 hpairs, rfl⟩⟩

theorem encodeTree_eq_some {j out : Json} :
    encodeTree j = some out ↔ ∃ v, loadsPlain j = some v ∧ dumps true v = some out :=
  Option.bind_eq_some_iff

theorem encodeTree_array {items : List Json} {out : Json} :
    encodeTree (.array items) = some out ↔
      ∃ outs, out = .array outs ∧ List.Forall₂ (fun j o => encodeTree j = some o) items outs := by
  have hcomp {outs : List Json} :
      List.Forall₂ (fun j o => encodeTree j = some o) items outs ↔
      ∃ vs, loadsItems intOfLiteral floatOfLiteral items = some vs ∧
        dumpsItems true vs = some outs := by
    simp only [loadsItems_eq_some, dumpsItems_eq_some, encodeTree_eq_some]
    exact forall₂_comp_iff
  rw [encodeTree_eq_some]
  simp only [hcomp, loadsPlain, loads, Option.map_eq_some_iff]
  constructor
  · rintro ⟨v, ⟨vs, hvs, rfl⟩, hout⟩
    rw [dumps] at hout
    obtain ⟨outs, houts, rfl⟩ := Option.map_eq_some_iff.1 hout
    exact ⟨outs, rfl, vs, hvs, houts⟩
  · rintro ⟨outs, rfl, vs, hvs, houts⟩
    refine ⟨_, ⟨vs, hvs, rfl⟩, ?_⟩
    rw [dumps, houts, Option.map_some]

/-- The members of an encoded object are in the order of their keys, each with the encoded value
of the last member under its key. -/
theorem encodeTree_object {members : List (List Char × Json)} {out : Json}
    (h : encodeTree (.object members) = some out) :
    ∃ outs, out = .object outs ∧ (outs.Pairwise fun p q => p.1 < q.1) ∧
      ∀ key, Option.Rel (fun j o => encodeTree j = some o) (lastValue members key)
        (lastValue outs key) := by
  obtain ⟨v, hv, hout⟩ := encodeTree_eq_some.1 h
  rw [loadsPlain, loads] at hv
  obtain ⟨pairs, hpairs, rfl⟩ := Option.map_eq_some_iff.1 hv
  rw [dumps] at hout
  obtain ⟨outs, houts, rfl⟩ := Option.map_eq_some_iff.1 hout
  obtain ⟨hsorted, hvalues⟩ := sortByKey_valuesRel (loadsMembers_eq_some.1 hpairs)
    (dumpsMembers_eq_some.1 houts)
  refine ⟨sortByKey outs, rfl, hsorted, fun key => ?_⟩
  simp only [encodeTree_eq_some]
  exact hvalues key

/-- Where the members can be read and the last under each key can be encoded, the object can. -/
theorem exists_encodeTree_object {members : List (List Char × Json)}
    (hreadable : ∀ p ∈ members, ReadableDocument p.2)
    (h : ∀ key j, lastValue members key = some j → ∃ o, encodeTree j = some o) :
    ∃ out, encodeTree (.object members) = some out := by
  obtain ⟨pairs, hpairs⟩ := (exists_valuesRel_iff (R := fun j v => loadsPlain j = some v)).2
    fun p hp => (exists_loadsPlain_iff p.2).2 (hreadable p hp)
  obtain ⟨outs, houts⟩ := exists_valuesRel_ofPairs (S := fun v o => dumps true v = some o) hpairs
    fun key j v hj hv => by
      obtain ⟨o, ho⟩ := h key j hj
      obtain ⟨v', hv', hdumps⟩ := encodeTree_eq_some.1 ho
      rw [hv, Option.some.injEq] at hv'
      exact ⟨o, hv' ▸ hdumps⟩
  refine ⟨.object (sortByKey outs), encodeTree_eq_some.2 ⟨.dict (Dict.ofPairs pairs).items, ?_, ?_⟩⟩
  · rw [loadsPlain, loads, loadsMembers_eq_some.2 hpairs, Option.map_some]
  · rw [dumps, dumpsMembers_eq_some.2 houts]
    rfl

theorem encodeTree_number {l : NumberLiteral} {out : Json} :
    encodeTree (.number l) = some out ↔
      if l.isInteger then HasText l.toInt ∧ out = jsonInt l.toInt
      else ∃ x, Binary64.ofLiteral l = some x ∧ out = .number x.repr := by
  rw [encodeTree, loadsPlain, loads, intOfLiteral, floatOfLiteral]
  split_ifs with hl htext
  · simp [dumps, htext, eq_comm]
  · simp [htext]
  · cases h : Binary64.ofLiteral l with
    | none => simp [dumps]
    | some x => simp [dumps, eq_comm]

theorem readableDocument_of_encodeTree {j out : Json} (h : encodeTree j = some out) :
    ReadableDocument j := by
  obtain ⟨v, hv, -⟩ := encodeTree_eq_some.1 h
  exact (exists_loadsPlain_iff j).1 ⟨v, hv⟩

/-- **Encoding is idempotent.** -/
theorem encodeTree_idem {j : Json} : ∀ {out}, encodeTree j = some out →
    encodeTree out = some out := by
  induction j using Json.induct with
  | null =>
    rintro out ⟨⟩
    rfl
  | bool b =>
    rintro out ⟨⟩
    rfl
  | string text =>
    rintro out ⟨⟩
    rfl
  | number l =>
    intro out h
    rw [encodeTree_number] at h
    split_ifs at h with hl
    · obtain ⟨htext, rfl⟩ := h
      rw [jsonInt, encodeTree_number, NumberLiteral.isInteger_ofInt, if_pos rfl,
        NumberLiteral.toInt_ofInt]
      exact ⟨htext, rfl⟩
    · obtain ⟨x, -, rfl⟩ := h
      rw [encodeTree_number, x.isInteger_repr, if_neg Bool.false_ne_true]
      exact ⟨x, x.ofLiteral_repr, rfl⟩
  | array items ih =>
    intro out h
    obtain ⟨outs, rfl, houts⟩ := encodeTree_array.1 h
    clear h
    refine encodeTree_array.2 ⟨outs, rfl, ?_⟩
    induction houts with
    | nil => exact .nil
    | cons hj _ ih' =>
      exact .cons (ih _ List.mem_cons_self hj) (ih' fun j hj => ih j (List.mem_cons_of_mem _ hj))
  | object members ih =>
    intro out h
    obtain ⟨outs, rfl, hsorted, hvalues⟩ := encodeTree_object h
    have hfixed (key : List Char) (o : Json) (ho : lastValue outs key = some o) :
        encodeTree o = some o := by
      have hvalue := hvalues key
      rw [ho] at hvalue
      generalize hj : lastValue members key = a at hvalue
      obtain hj' | _ := hvalue
      exact ih _ (mem_of_lastValue hj) hj'
    have hmem (p : List Char × Json) (hp : p ∈ outs) : encodeTree p.2 = some p.2 :=
      hfixed p.1 p.2 ((lastValue_eq_some_iff (nodup_of_pairwise hsorted)).2 hp)
    have hreadable (p : List Char × Json) (hp : p ∈ outs) : ReadableDocument p.2 :=
      readableDocument_of_encodeTree (hmem p hp)
    obtain ⟨out, hout⟩ := exists_encodeTree_object hreadable
      fun key o ho => ⟨o, hfixed key o ho⟩
    obtain ⟨outs', rfl, hsorted', hvalues'⟩ := encodeTree_object hout
    have hsame : outs = outs' := by
      refine eq_of_lastValue_eq hsorted hsorted' fun key => ?_
      have hvalue := hvalues' key
      generalize ho : lastValue outs key = a at hvalue ⊢
      generalize lastValue outs' key = b at hvalue ⊢
      cases hvalue with
      | none => rfl
      | some h =>
        rw [hfixed key _ ho] at h
        exact h
    rw [hout, hsame]

theorem exactDocument_number {l : NumberLiteral} : ExactDocument (.number l) ↔
    if l.isInteger then HasText l.toInt else FloatExact l := by
  constructor
  · rintro ⟨hreadable, hexact⟩
    split_ifs with hl
    · exact hreadable l hl .number
    · exact hexact l (Bool.eq_false_iff.2 hl) .number
  · intro h
    refine ⟨?_, ?_⟩
    · rintro _ hl ⟨⟩
      rw [if_pos hl] at h
      exact h
    · rintro _ hl ⟨⟩
      rw [if_neg (Bool.eq_false_iff.1 hl)] at h
      exact h

theorem exactDocument_array {items : List Json} :
    ExactDocument (.array items) ↔ ∀ j ∈ items, ExactDocument j := by
  constructor
  · rintro ⟨hreadable, hexact⟩ j hj
    exact ⟨readableDocument_array.1 hreadable j hj,
      fun l hl hkeeps => hexact l hl (.array hj hkeeps)⟩
  · intro h
    refine ⟨readableDocument_array.2 fun j hj => (h j hj).1, fun l hl hkeeps => ?_⟩
    obtain _ | ⟨hj, hkeeps⟩ | _ := hkeeps
    exact (h _ hj).2 l hl hkeeps

theorem exactDocument_object {members : List (List Char × Json)} :
    ExactDocument (.object members) ↔ ReadableDocument (.object members) ∧
      ∀ key j, lastValue members key = some j → ExactDocument j := by
  constructor
  · rintro ⟨hreadable, hexact⟩
    refine ⟨hreadable, fun key j hj => ⟨?_, fun l hl hkeeps => hexact l hl (.object hj hkeeps)⟩⟩
    exact readableDocument_object.1 hreadable (key, j) (mem_of_lastValue hj)
  · rintro ⟨hreadable, h⟩
    refine ⟨hreadable, fun l hl hkeeps => ?_⟩
    obtain _ | _ | ⟨hj, hkeeps⟩ := hkeeps
    exact (h _ _ hj).2 l hl hkeeps

theorem exactDocument_of_members {members : List (List Char × Json)}
    (h : ∀ p ∈ members, ExactDocument p.2) : ExactDocument (.object members) :=
  exactDocument_object.2 ⟨readableDocument_object.2 fun p hp => (h p hp).1,
    fun key j hj => h (key, j) (mem_of_lastValue hj)⟩

/-- A document is encoded as one of the same value. -/
def EncodesFaithfully (j : Json) : Prop := ∃ out, encodeTree j = some out ∧ out.meaning = j.meaning

theorem encodesFaithfully_number {l : NumberLiteral} :
    EncodesFaithfully (.number l) ↔ ExactDocument (.number l) := by
  rw [exactDocument_number, EncodesFaithfully]
  simp only [encodeTree_number, Json.meaning]
  split_ifs with hl
  · constructor
    · rintro ⟨_, ⟨htext, -⟩, -⟩
      exact htext
    · intro htext
      refine ⟨_, ⟨htext, rfl⟩, ?_⟩
      rw [jsonInt, Json.meaning, NumberLiteral.value_toDecimal_ofInt,
        NumberLiteral.value_toDecimal_of_isInteger hl]
  · constructor
    · rintro ⟨_, ⟨x, hx, rfl⟩, hmeaning⟩
      rw [Json.meaning, JsonMeaning.number.injEq] at hmeaning
      exact ⟨x, hx, hmeaning⟩
    · rintro ⟨x, hx, hvalue⟩
      refine ⟨_, ⟨x, hx, rfl⟩, ?_⟩
      rw [Json.meaning, hvalue]

theorem encodesFaithfully_array {items : List Json} :
    EncodesFaithfully (.array items) ↔ ∀ j ∈ items, EncodesFaithfully j := by
  unfold EncodesFaithfully
  rw [← exists_forall₂_iff (R := fun j o => encodeTree j = some o ∧ o.meaning = j.meaning)]
  constructor
  · rintro ⟨out, hout, hmeaning⟩
    obtain ⟨outs, rfl, houts⟩ := encodeTree_array.1 hout
    rw [Json.meaning_array, Json.meaning_array, JsonMeaning.array.injEq] at hmeaning
    refine ⟨outs, ?_⟩
    clear hout
    induction houts with
    | nil => exact .nil
    | cons hj _ ih =>
      rw [List.map_cons, List.map_cons, List.cons.injEq] at hmeaning
      exact .cons ⟨hj, hmeaning.1⟩ (ih hmeaning.2)
  · rintro ⟨outs, houts⟩
    refine ⟨.array outs, encodeTree_array.2 ⟨outs, rfl, houts.imp fun _ _ h => h.1⟩, ?_⟩
    rw [Json.meaning_array, Json.meaning_array]
    refine congrArg JsonMeaning.array ?_
    induction houts with
    | nil => rfl
    | cons hj _ ih => rw [List.map_cons, List.map_cons, hj.2, ih]

theorem encodesFaithfully_object {members : List (List Char × Json)} :
    EncodesFaithfully (.object members) ↔ ReadableDocument (.object members) ∧
      ∀ key j, lastValue members key = some j → EncodesFaithfully j := by
  constructor
  · rintro ⟨out, hout, hmeaning⟩
    refine ⟨readableDocument_of_encodeTree hout, fun key j hj => ?_⟩
    obtain ⟨outs, rfl, -, hvalues⟩ := encodeTree_object hout
    have hvalue := hvalues key
    have hsame := Json.meaning_object_eq_iff.1 hmeaning key
    rw [hj] at hvalue hsame
    generalize lastValue outs key = b at hvalue hsame
    obtain ho | _ := hvalue
    exact ⟨_, ho, Option.some.inj hsame⟩
  · rintro ⟨hreadable, h⟩
    obtain ⟨out, hout⟩ := exists_encodeTree_object (readableDocument_object.1 hreadable)
      fun key j hj => (h key j hj).imp fun _ ho => ho.1
    refine ⟨out, hout, ?_⟩
    obtain ⟨outs, rfl, -, hvalues⟩ := encodeTree_object hout
    refine Json.meaning_object_eq_iff.2 fun key => ?_
    have hvalue := hvalues key
    generalize hj : lastValue members key = a at hvalue
    generalize lastValue outs key = b at hvalue
    cases hvalue with
    | none => rfl
    | some ho =>
      obtain ⟨o, ho', hsame⟩ := h key _ hj
      rw [ho, Option.some.injEq] at ho'
      rw [Option.map_some, Option.map_some, ho', hsame]

/-- **The documents whose values survive.** -/
theorem encodesFaithfully_iff (j : Json) : EncodesFaithfully j ↔ ExactDocument j := by
  induction j using Json.induct with
  | null => exact iff_of_true ⟨_, rfl, rfl⟩ ⟨nofun, nofun⟩
  | bool b => exact iff_of_true ⟨_, rfl, rfl⟩ ⟨nofun, nofun⟩
  | string text => exact iff_of_true ⟨_, rfl, rfl⟩ ⟨nofun, nofun⟩
  | number l => exact encodesFaithfully_number
  | array items ih =>
    rw [encodesFaithfully_array, exactDocument_array]
    exact forall₂_congr ih
  | object members ih =>
    rw [encodesFaithfully_object, exactDocument_object]
    refine and_congr_right fun _ => forall_congr' fun key => forall₂_congr fun j hj => ?_
    exact ih (key, j) (mem_of_lastValue hj)

end Encoded

/-! ### Encoded values -/

section EncodedValues

/-- The document of a value that arrives as the JSONB null or as a text. -/
def JsonbValue.document? : JsonbValue → Option Json
  | .jsonbNull => some .null
  | .tree (.str text) => Json.parse text
  | .tree _ => none

/-- The value that PostgreSQL has of a document. -/
def JsonbValue.meaning? (value : JsonbValue) : Option JsonMeaning :=
  value.document?.map Json.meaning

/-- A document as the encoder returns it. -/
def encodedValue : Json → JsonbValue
  | .null => .jsonbNull
  | j => .tree (.str j.print)

theorem document?_encodedValue (j : Json) : (encodedValue j).document? = some j := by
  cases j with
  | null => rfl
  | _ => exact Json.parse_print _

theorem dumps_eq_null {v : LoadedJson} : dumps true v = some .null ↔ v = .none := by
  cases v with
  | none => exact iff_of_true rfl rfl
  | float x => cases x <;> simp [dumps]
  | int n =>
    rw [dumps]
    split_ifs <;> simp [jsonInt]
  | _ => simp [dumps]

theorem encodeParsed_eq (v : LoadedJson) :
    encodeParsed true v = (dumps true v).map encodedValue := by
  cases hout : dumps true v with
  | none =>
    cases v with
    | none => cases hout
    | _ => simp [encodeParsed, hout]
  | some out =>
    cases out with
    | null =>
      rw [dumps_eq_null.1 hout]
      rfl
    | _ =>
      cases v with
      | none => cases hout
      | _ => simp [encodeParsed, hout, encodedValue]

/-- The values that have a document. -/
theorem document?_cases {value : JsonbValue} {j : Json} (h : value.document? = some j) :
    (value = .jsonbNull ∧ j = .null) ∨
      ∃ text, value = .tree (.str text) ∧ Json.parse text = some j := by
  rcases value with _ | v
  · exact Or.inl ⟨rfl, (Option.some.inj h).symm⟩
  · cases v with
    | str text => exact Or.inr ⟨text, rfl, h⟩
    | _ => exact absurd h nofun

/-- What the encoder makes of a document. -/
theorem encodeJson_eq {value : JsonbValue} {j : Json} (h : value.document? = some j) :
    encodeJson true value =
      ((encodeTree j).map encodedValue).elim (.error (jsonRefusal true value)) .ok := by
  obtain ⟨rfl, rfl⟩ | ⟨text, rfl, hparse⟩ := document?_cases h
  · rfl
  · have hencoded : (do
        let j ← Json.parse text
        let parsed ← loadsPlain j
        encodeParsed true parsed) = (encodeTree j).map encodedValue := by
      rw [hparse, encodeTree]
      cases hv : loadsPlain j with
      | none => simp [hv]
      | some v => simp [hv, encodeParsed_eq]
    simp only [encodeJson, if_true]
    rw [hencoded]

theorem encodeJson_eq_ok {value : JsonbValue} {j : Json} (h : value.document? = some j)
    {e : JsonbValue} : encodeJson true value = .ok e ↔
      ∃ out, encodeTree j = some out ∧ e = encodedValue out := by
  rw [encodeJson_eq h]
  cases encodeTree j with
  | none => simp
  | some out => simp [eq_comm]

/-- The identity of a value is that of its document. -/
theorem canonicalJsonbIdentity_eq {value : JsonbValue} {j id : Json}
    (h : value.document? = some j) (hid : HasIdentity j id) :
    canonicalJsonbIdentity value = .ok id := by
  obtain ⟨v, hv, hidentity⟩ := hid
  obtain ⟨rfl, rfl⟩ | ⟨text, rfl, hparse⟩ := document?_cases h
  · cases hv
    exact hidentity
  · rw [canonicalJsonbIdentity, jsonbParse, hparse, Option.bind_some, hv]
    exact hidentity

theorem canonicalJsonbIdentity_eq_iff {value value' : JsonbValue} {j j' : Json}
    (h : value.document? = some j) (h' : value'.document? = some j') :
    canonicalJsonbIdentity value = canonicalJsonbIdentity value' ↔ j.meaning = j'.meaning := by
  obtain ⟨id, hid⟩ := exists_hasIdentity j
  obtain ⟨id', hid'⟩ := exists_hasIdentity j'
  rw [canonicalJsonbIdentity_eq h hid, canonicalJsonbIdentity_eq h' hid', Except.ok.injEq]
  exact identityDecides j hid hid'

/-- A value is encoded as one of the same meaning, and that one as itself. The meaning of a value is
that of the document it is a text or a tree of. -/
def SurvivesAs (value e : JsonbValue) : Prop :=
  encodeJson true value = .ok e ∧ e.meaning? = value.meaning? ∧ encodeJson true e = .ok e

theorem exists_survivesAs_iff {value : JsonbValue} {j : Json} (h : value.document? = some j) :
    (∃ e, SurvivesAs value e) ↔ ExactDocument j := by
  rw [← encodesFaithfully_iff]
  constructor
  · rintro ⟨e, hencode, hmeaning, -⟩
    obtain ⟨out, hout, rfl⟩ := (encodeJson_eq_ok h).1 hencode
    rw [JsonbValue.meaning?, document?_encodedValue, JsonbValue.meaning?, h] at hmeaning
    exact ⟨out, hout, Option.some.inj hmeaning⟩
  · rintro ⟨out, hout, hmeaning⟩
    refine ⟨encodedValue out, (encodeJson_eq_ok h).2 ⟨out, hout, rfl⟩, ?_, ?_⟩
    · rw [JsonbValue.meaning?, document?_encodedValue, JsonbValue.meaning?, h]
      exact congrArg some hmeaning
    · exact (encodeJson_eq_ok (document?_encodedValue out)).2 ⟨out, encodeTree_idem hout, rfl⟩

/-- Encoded values that have kept their meaning have identities that tell the meanings apart. -/
theorem SurvivesAs.identity_eq_iff {value value' e e' : JsonbValue} {j j' : Json}
    (h : value.document? = some j) (h' : value'.document? = some j') (he : SurvivesAs value e)
    (he' : SurvivesAs value' e') :
    canonicalJsonbIdentity e = canonicalJsonbIdentity e' ↔ value.meaning? = value'.meaning? := by
  obtain ⟨out, -, rfl⟩ := (encodeJson_eq_ok h).1 he.1
  obtain ⟨out', -, rfl⟩ := (encodeJson_eq_ok h').1 he'.1
  rw [canonicalJsonbIdentity_eq_iff (document?_encodedValue out) (document?_encodedValue out'),
    ← he.2.1, ← he'.2.1, JsonbValue.meaning?, JsonbValue.meaning?, document?_encodedValue,
    document?_encodedValue, Option.map_some, Option.map_some, Option.some.injEq]

/-- **Which documents keep their values**: two JSONB values are encoded as values with the same
meanings, each of them as itself when it is encoded again, and with identities that are equal
exactly when PostgreSQL has the documents as equal, if and only if the numbers of both survive. -/
theorem encodeJson_iff {value value' : JsonbValue} {j j' : Json} (h : value.document? = some j)
    (h' : value'.document? = some j') :
    (∃ e e', SurvivesAs value e ∧ SurvivesAs value' e' ∧
      (canonicalJsonbIdentity e = canonicalJsonbIdentity e' ↔ value.meaning? = value'.meaning?)) ↔
    ExactDocument j ∧ ExactDocument j' := by
  rw [← exists_survivesAs_iff h, ← exists_survivesAs_iff h']
  constructor
  · rintro ⟨e, e', he, he', -⟩
    exact ⟨⟨e, he⟩, e', he'⟩
  · rintro ⟨⟨e, he⟩, e', he'⟩
    exact ⟨e, e', he, he', he.identity_eq_iff h h' he'⟩

namespace Accounts

/-- Whether a literal survives, where its double is known. -/
theorem floatExact_iff {l : NumberLiteral} {d : DecimalNumber}
    (h : (Binary64.ofLiteral l).map (fun x => x.repr.toDecimal) = some d) :
    FloatExact l ↔ d.value = l.toDecimal.value := by
  obtain ⟨x, hx, rfl⟩ := Option.map_eq_some_iff.1 h
  constructor
  · rintro ⟨y, hy, hvalue⟩
    rw [hx, Option.some.injEq] at hy
    rw [hy, hvalue]
  · exact fun hvalue => ⟨x, hx, hvalue⟩

/-- `1.50`. -/
def fee : NumberLiteral :=
  { negative := false, whole := 1, fraction := some ⟨['5', '0'], by decide, by decide⟩ }

/-- A fee and the marks of an account. -/
def feeDocument : Json :=
  .object [("fee".toList, .number fee), ("marks".toList, .array [.null, .bool true])]

/-- The same members, the other way round. -/
def feeDocument' : Json :=
  .object [("marks".toList, .array [.null, .bool true]), ("fee".toList, .number fee)]

theorem floatExact_fee : FloatExact fee := by
  have hdouble : (Binary64.ofLiteral fee).map (fun x => x.repr.toDecimal) =
      some ⟨false, 15, -1⟩ := by with_unfolding_all rfl
  have hfee : fee.toDecimal = ⟨false, 150, -2⟩ := rfl
  rw [floatExact_iff hdouble, hfee]
  norm_num [DecimalNumber.value, DecimalNumber.sign]

theorem exactDocument_marks : ExactDocument (.array [.null, .bool true]) := by
  refine exactDocument_array.2 fun j hj => ?_
  simp only [List.mem_cons, List.not_mem_nil, or_false] at hj
  rcases hj with rfl | rfl <;> exact ⟨nofun, nofun⟩

theorem exactDocument_fee : ExactDocument (.number fee) :=
  exactDocument_number.2 floatExact_fee

theorem exactDocument_feeDocument : ExactDocument feeDocument := by
  refine exactDocument_of_members fun p hp => ?_
  simp only [List.mem_cons, List.not_mem_nil, or_false] at hp
  rcases hp with rfl | rfl
  · exact exactDocument_fee
  · exact exactDocument_marks

theorem exactDocument_feeDocument' : ExactDocument feeDocument' := by
  refine exactDocument_of_members fun p hp => ?_
  simp only [List.mem_cons, List.not_mem_nil, or_false] at hp
  rcases hp with rfl | rfl
  · exact exactDocument_marks
  · exact exactDocument_fee

/-- The order of the members does not matter. -/
theorem encodeJson_feeDocument :
    ∃ e e', SurvivesAs (.tree (.str feeDocument.print)) e ∧
      SurvivesAs (.tree (.str feeDocument'.print)) e' ∧
      (canonicalJsonbIdentity e = canonicalJsonbIdentity e' ↔
        (JsonbValue.tree (.str feeDocument.print)).meaning? =
          (JsonbValue.tree (.str feeDocument'.print)).meaning?) :=
  have h (j : Json) : (JsonbValue.tree (.str j.print)).document? = some j := Json.parse_print j
  (encodeJson_iff (h feeDocument) (h feeDocument')).2
    ⟨exactDocument_feeDocument, exactDocument_feeDocument'⟩

/-- `0.12345678901234567890`. -/
def rate : NumberLiteral :=
  { negative := false, whole := 0
    fraction := some ⟨"12345678901234567890".toList, by decide, by decide⟩ }

def rateDocument : Json := .object [("rate".toList, .number rate)]

/-- Twenty digits are more than a double has. -/
theorem not_survivesAs_rateDocument :
    (JsonbValue.tree (.str rateDocument.print)).document? = some rateDocument ∧
      ¬∃ e, SurvivesAs (.tree (.str rateDocument.print)) e := by
  have hdocument : (JsonbValue.tree (.str rateDocument.print)).document? = some rateDocument :=
    Json.parse_print rateDocument
  refine ⟨hdocument, fun hsurvives => ?_⟩
  have hexact := (exists_survivesAs_iff hdocument).1 hsurvives
  have hrate : FloatExact rate := hexact.2 rate rfl
    (.object (show lastValue _ "rate".toList = some (.number rate) from rfl) .number)
  have hdouble : (Binary64.ofLiteral rate).map (fun x => x.repr.toDecimal) =
      some ⟨false, 12345678901234568, -17⟩ := by decide +kernel
  have hdecimal : rate.toDecimal = ⟨false, 12345678901234567890, -20⟩ := by rfl
  rw [floatExact_iff hdouble, hdecimal] at hrate
  norm_num [DecimalNumber.value, DecimalNumber.sign] at hrate

end Accounts

end EncodedValues

end CdcFlight
