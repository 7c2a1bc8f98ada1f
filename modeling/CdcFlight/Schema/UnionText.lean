import CdcFlight.Lib.Brackets
import CdcFlight.Lib.Text

/-!
# Declarations of unions

`native_type` and `union_type` of `typed_types.py` write a destination type as SQL text; when a
column gets another type, `_union_members` and `_is_top_level_union` of `schema_ddl.py` read the
members of a union back from such a text. They count parentheses, those of enumeration labels and
quoted field names like the others.

## Main definitions

* `CdcFlight.NativeSql`: the types that are written, and `CdcFlight.NativeSql.sql` their texts.
* `CdcFlight.unionMembers`, `CdcFlight.isTopLevelUnion`: what is read of a text.
* `CdcFlight.NativeSql.ReadsBack`: both of them are right about a type.

## Main results

* `CdcFlight.NativeSql.readsBack_iff`: the types whose texts are read back.
* `CdcFlight.NativeSql.bracketed_sql`: the texts without parentheses of their own.
-/

namespace CdcFlight

open Lib

/-! ### Types and their texts -/

/-- The types that are written as one word. -/
inductive ScalarType
  | smallint
  | integer
  | bigint
  | float
  | double
  | boolean
  | varchar
  | blob
  | bignum
  | date
  | time
  | timestamp
  | timestamptz
  | timetz
  | interval
  | uuid
  | json
  | variant
deriving DecidableEq, Repr

/-- The word of a type. -/
def ScalarType.sql : ScalarType → List Char
  | .smallint => "SMALLINT".toList
  | .integer => "INTEGER".toList
  | .bigint => "BIGINT".toList
  | .float => "FLOAT".toList
  | .double => "DOUBLE".toList
  | .boolean => "BOOLEAN".toList
  | .varchar => "VARCHAR".toList
  | .blob => "BLOB".toList
  | .bignum => "BIGNUM".toList
  | .date => "DATE".toList
  | .time => "TIME".toList
  | .timestamp => "TIMESTAMP".toList
  | .timestamptz => "TIMESTAMPTZ".toList
  | .timetz => "TIMETZ".toList
  | .interval => "INTERVAL".toList
  | .uuid => "UUID".toList
  | .json => "JSON".toList
  | .variant => "VARIANT".toList

/-- A character of a name that needs no quotes. -/
def isWord (c : Char) : Bool := c.isAlphanum || c = '_'

/-- The name of a union member. -/
@[ext] structure MemberName where
  /-- The name. -/
  text : List Char
  ne_nil : text ≠ []
  word : text.all isWord = true

instance : DecidableEq MemberName := fun _ _ => decidable_of_iff _ MemberName.ext_iff.symm

/-- A quote is doubled inside of quotes. -/
def doubled (quote : Char) (text : List Char) : List Char :=
  text.flatMap fun c => if c = quote then [quote, quote] else [c]

/-- A text in quotes. -/
def inQuotes (quote : Char) (text : List Char) : List Char :=
  quote :: (doubled quote text ++ [quote])

/-- The name of a field: those of composite types are quoted, those of built-in types are not. -/
inductive FieldName
  | bare (name : MemberName)
  | quoted (name : List Char)
deriving DecidableEq

/-- `_quote_identifier`, where it is used. -/
def FieldName.sql : FieldName → List Char
  | .bare name => name.text
  | .quoted name => inQuotes '"' name

/-- The destination types, as `native_type` and `union_type` write them. -/
inductive NativeSql
  | scalar (type : ScalarType)
  | decimal (precision scale : ℕ)
  | enum (labels : List (List Char))
  | list (item : NativeSql)
  | map (key value : NativeSql)
  | struct (fields : List (FieldName × NativeSql))
  | union (members : List (MemberName × NativeSql))

/-- The decimal digits of a number. -/
def digitsOf (n : ℕ) : List Char := Nat.toDigits 10 n

/-- A word before a list in parentheses. -/
def inParens (word : String) (items : List (List Char)) : List Char :=
  word.toList ++ '(' :: (List.intercalate [','] items ++ [')'])

mutual

/-- `NativeType.sql`. -/
def NativeSql.sql : NativeSql → List Char
  | .scalar type => type.sql
  | .decimal precision scale => inParens "DECIMAL" [digitsOf precision, digitsOf scale]
  | .enum labels => inParens "ENUM" (labels.map (inQuotes '\''))
  | .list item => item.sql ++ "[]".toList
  | .map key value => inParens "MAP" [key.sql, value.sql]
  | .struct fields => inParens "STRUCT" (fieldTexts fields)
  | .union members => inParens "UNION" (memberTexts members)

/-- The fields of a structure. -/
def fieldTexts : List (FieldName × NativeSql) → List (List Char)
  | [] => []
  | (name, type) :: fields => (name.sql ++ ' ' :: type.sql) :: fieldTexts fields

/-- The members of a union. -/
def memberTexts : List (MemberName × NativeSql) → List (List Char)
  | [] => []
  | (name, type) :: members => (name.text ++ ' ' :: type.sql) :: memberTexts members

end

/-! ### Reading a text -/

/-- `str.upper`, as far as it leads to the letters of `UNION`. -/
def upper (c : Char) : Char := if c.toNat = 0x131 then 'I' else c.toUpper

/-- `text.upper().startswith("UNION(")`. -/
def startsUnion (text : List Char) : Bool := (text.take 6).map upper = "UNION(".toList

/-- The parts of a declaration; a blank one at its end is none. -/
def unionParts (text : List Char) : List (List Char) :=
  let parts := splitOuter 0 [] text
  parts.dropLast ++ parts.getLast?.toList.filter fun part => stripBy isSpace part ≠ []

/-- A part of a declaration, cut at its first space. -/
def memberOfPart (part : List Char) : Option (List Char × List Char) :=
  let text := stripBy isSpace part
  let name := text.takeWhile (· ≠ ' ')
  match text.dropWhile (· ≠ ' ') with
  | [] => none
  | _ :: type =>
    if name = [] then none else some (stripBy (· = '"') name, stripBy isSpace type)

/-- `_union_members`. -/
def unionMembers (physical : List Char) : List (List Char × List Char) :=
  let text := stripBy isSpace physical
  let text :=
    if startsUnion text ∧ text.getLast? = some ')' then
      ((text.dropWhile (· ≠ '(')).drop 1).dropLast
    else text
  (unionParts text).filterMap memberOfPart

/-- `_is_top_level_union`. -/
def isTopLevelUnion (physical : List Char) : Bool :=
  let text := stripBy isSpace physical
  startsUnion text && closesAtEnd 0 (text.dropWhile (· ≠ '('))

namespace NativeSql

/-- The members of a union are read back from the text of the type, with their names unquoted and in
their order, and only unions are taken for unions. -/
def ReadsBack (type : NativeSql) : Prop :=
  (∀ members, type = .union members →
    unionMembers type.sql = members.map fun m => (m.1.text, m.2.sql)) ∧
  (isTopLevelUnion type.sql = true ↔ ∃ members, type = .union members)

/-! ### Names and quotes -/

section Texts

variable {name : MemberName} {type : NativeSql} {c : Char} {x text : List Char} {word : String}
  {members : List (MemberName × NativeSql)}

theorem isSpace_of_isWord (h : isWord c = true) : isSpace c = false := by
  rw [isWord, Bool.or_eq_true, decide_eq_true_eq] at h
  exact isSpace_of_word h

/-- What is no part of a name. -/
theorem notMem_name (h : isWord c = false) : c ∉ name.text := by
  intro hc
  have hword := List.all_eq_true.1 name.word c hc
  rw [h] at hword
  cases hword

theorem memberTexts_eq_map (members : List (MemberName × NativeSql)) :
    memberTexts members = members.map fun m => m.1.text ++ ' ' :: m.2.sql := by
  induction members with
  | nil => rw [memberTexts, List.map_nil]
  | cons m members ih => rw [memberTexts, List.map_cons, ih]

/-- Doubling adds quotes only. -/
theorem mem_inQuotes {quote : Char} (h : c ∈ inQuotes quote x) : c = quote ∨ c ∈ x := by
  rcases List.mem_cons.1 h with rfl | h
  · exact Or.inl rfl
  · rcases List.mem_append.1 h with h | h
    · obtain ⟨c', hc', h⟩ := List.mem_flatMap.1 h
      split_ifs at h with hq
      · rcases List.mem_cons.1 h with rfl | h
        · exact Or.inl rfl
        · exact Or.inl (List.mem_singleton.1 h)
      · rw [List.mem_singleton.1 h]
        exact Or.inr hc'
    · exact Or.inl (List.mem_singleton.1 h)

/-! ### The ends of a text -/

/-- A text that is not empty and has no spaces at its ends. -/
structure Tight (text : List Char) : Prop where
  ne_nil : text ≠ []
  head : ∀ c ∈ text.head?, isSpace c = false
  last : ∀ c ∈ text.getLast?, isSpace c = false

theorem Tight.strip (h : Tight text) : stripBy isSpace text = text :=
  stripBy_eq_self h.head h.last

/-- Two tight texts, whatever is between them. -/
theorem Tight.append {y z : List Char} (hx : Tight x) (hz : Tight z) : Tight (x ++ (y ++ z)) where
  ne_nil := List.append_ne_nil_of_left_ne_nil hx.ne_nil _
  head c hc := by
    rw [List.head?_append_of_ne_nil _ hx.ne_nil] at hc
    exact hx.head c hc
  last c hc := by
    rw [← List.append_assoc, List.getLast?_append_of_ne_nil _ hz.ne_nil] at hc
    exact hz.last c hc

theorem tight_singleton (h : isSpace c = false) : Tight [c] where
  ne_nil := List.cons_ne_nil _ _
  head c' hc' := by
    obtain rfl := Option.some.inj hc'
    exact h
  last c' hc' := by
    obtain rfl := Option.some.inj hc'
    exact h

/-- A word. -/
theorem tight_word (hne : text ≠ []) (hword : text.all isWord = true) : Tight text where
  ne_nil := hne
  head c hc := isSpace_of_isWord (List.all_eq_true.1 hword c (List.mem_of_mem_head? hc))
  last c hc := isSpace_of_isWord (List.all_eq_true.1 hword c (List.mem_of_getLast? hc))

theorem tight_inParens {items : List (List Char)} (hword : Tight word.toList) :
    Tight (inParens word items) :=
  hword.append (y := '(' :: List.intercalate [','] items) (tight_singleton (c := ')') rfl)

theorem scalar_word (type : ScalarType) : type.sql ≠ [] ∧ type.sql.all isWord = true := by
  cases type <;> decide

/-- The text of a type has no spaces at its ends. -/
theorem tight_sql : (type : NativeSql) → Tight type.sql
  | .scalar type => tight_word (scalar_word type).1 (scalar_word type).2
  | .decimal .. => tight_inParens (tight_word (by decide) (by decide))
  | .enum _ => tight_inParens (tight_word (by decide) (by decide))
  | .list item => (tight_sql item).append (y := ['[']) (tight_singleton (c := ']') rfl)
  | .map .. => tight_inParens (tight_word (by decide) (by decide))
  | .struct _ => tight_inParens (tight_word (by decide) (by decide))
  | .union _ => tight_inParens (tight_word (by decide) (by decide))

/-! ### Reading a member -/

/-- A member is read back from its own part. -/
theorem memberOfPart_memberText :
    memberOfPart (name.text ++ ' ' :: type.sql) = some (name.text, type.sql) := by
  have htext : Tight (name.text ++ ' ' :: type.sql) :=
    (tight_word name.ne_nil name.word).append (y := [' ']) (tight_sql type)
  have hspace : ∀ c ∈ name.text, decide (c ≠ ' ') = true := fun c hc =>
    decide_eq_true fun h => notMem_name rfl (h ▸ hc)
  have htake : (name.text ++ ' ' :: type.sql).takeWhile (· ≠ ' ') = name.text := by
    rw [List.takeWhile_append_of_pos hspace]
    exact List.append_nil _
  have hdrop : (name.text ++ ' ' :: type.sql).dropWhile (· ≠ ' ') = ' ' :: type.sql :=
    List.dropWhile_append_of_pos hspace
  have hquote (c : Char) (hc : c ∈ name.text) : decide (c = '"') = false :=
    decide_eq_false fun h => notMem_name rfl (h ▸ hc)
  have hname : stripBy (· = '"') name.text = name.text :=
    stripBy_eq_self (fun c hc => hquote c (List.mem_of_mem_head? hc))
      fun c hc => hquote c (List.mem_of_getLast? hc)
  simp only [memberOfPart, htext.strip, htake, hdrop]
  rw [if_neg name.ne_nil, hname, (tight_sql type).strip]

/-- Nothing is read of a part that is not in it. -/
theorem memberOfPart_sublist {part : List Char} {m : List Char × List Char}
    (h : memberOfPart part = some m) : (m.1 ++ ' ' :: m.2).Sublist part := by
  simp only [memberOfPart] at h
  split at h
  · cases h
  · rename_i c rest hrest
    split_ifs at h
    obtain rfl := Option.some.inj h
    have hc : c = ' ' := by
      have hnot := List.head?_dropWhile_not (· ≠ ' ') (stripBy isSpace part)
      rw [hrest] at hnot
      simpa using hnot
    have hcut : (stripBy isSpace part).takeWhile (· ≠ ' ') ++ c :: rest = stripBy isSpace part := by
      rw [← hrest]
      exact List.takeWhile_append_dropWhile
    rw [hc] at hcut
    have hparts : (stripBy (· = '"') ((stripBy isSpace part).takeWhile (· ≠ ' ')) ++
        ' ' :: stripBy isSpace rest).Sublist
          ((stripBy isSpace part).takeWhile (· ≠ ' ') ++ ' ' :: rest) :=
      stripBy_sublist.append (stripBy_sublist.cons_cons ' ')
    rw [hcut] at hparts
    exact hparts.trans stripBy_sublist

/-- From a blank part nothing is read anyway. -/
theorem filterMap_unionParts :
    (unionParts text).filterMap memberOfPart =
      (splitOuter 0 [] text).filterMap memberOfPart := by
  have hblank (part : List Char) (h : stripBy isSpace part = []) : memberOfPart part = none := by
    simp only [memberOfPart, h]
    rfl
  simp only [unionParts]
  rcases List.eq_nil_or_concat (splitOuter 0 [] text) with h | ⟨parts, part, h⟩
  · rw [h]
    rfl
  · rw [List.concat_eq_append] at h
    rw [h, List.dropLast_concat, List.getLast?_concat, List.filterMap_append, List.filterMap_append,
      Option.toList_some]
    by_cases hpart : stripBy isSpace part = []
    · rw [List.filter_cons_of_neg (by simpa using hpart), List.filterMap_cons_none (hblank _ hpart)]
      rfl
    · rw [List.filter_cons_of_pos (by simpa using hpart)]
      rfl

/-! ### Reading a union -/

theorem union_word : "UNION".toList = ['U', 'N', 'I', 'O', 'N'] := by rfl

theorem dropWhile_union (body : List Char) :
    (inParens "UNION" [body]).dropWhile (· ≠ '(') = '(' :: (body ++ [')']) := by
  rw [inParens, union_word, List.intercalate_singleton]
  rfl

theorem sql_union : (union members).sql =
    inParens "UNION" [List.intercalate [','] (memberTexts members)] := by
  rw [NativeSql.sql, inParens, inParens, List.intercalate_singleton]

theorem startsUnion_union (body : List Char) : startsUnion (inParens "UNION" [body]) = true := by
  have htake : (inParens "UNION" [body]).take 6 = ['U', 'N', 'I', 'O', 'N', '('] := by
    rw [inParens, union_word]
    rfl
  have hunion : "UNION(".toList = ['U', 'N', 'I', 'O', 'N', '('] := by rfl
  rw [startsUnion, htake, hunion]
  rfl

/-- The text between the parentheses of a union is cut at its outer commas. -/
theorem unionMembers_union : unionMembers (union members).sql =
    (splitOuter 0 [] (List.intercalate [','] (memberTexts members))).filterMap memberOfPart := by
  have hlast (body : List Char) : (inParens "UNION" [body]).getLast? = some ')' := by
    rw [inParens, ← List.cons_append, ← List.append_assoc, List.getLast?_concat]
  have htight := tight_sql (union members)
  simp only [unionMembers]
  rw [htight.strip, sql_union, if_pos ⟨startsUnion_union _, hlast _⟩, dropWhile_union,
    List.drop_one, List.tail_cons, List.dropLast_concat, filterMap_unionParts]

theorem isTopLevelUnion_union : isTopLevelUnion (union members).sql =
    closesAtEnd 1 (List.intercalate [','] (memberTexts members) ++ [')']) := by
  simp only [isTopLevelUnion]
  rw [(tight_sql (union members)).strip, sql_union, startsUnion_union, Bool.true_and,
    dropWhile_union, closesAtEnd_open, zero_add]

/-- Other types are not taken for unions, a list of unions included. -/
theorem isTopLevelUnion_other (h : ∀ members, type ≠ union members) :
    isTopLevelUnion type.sql = false := by
  simp only [isTopLevelUnion]
  rw [(tight_sql type).strip]
  have hword {items : List (List Char)} (word : String)
      (hstart : ∀ rest, startsUnion (word.toList ++ '(' :: rest) = false) (p : Bool) :
      (startsUnion (inParens word items) && p) = false := by
    rw [inParens, hstart, Bool.false_and]
  cases type with
  | scalar type => cases type <;> rfl
  | decimal precision scale => exact hword "DECIMAL" (fun rest => rfl) _
  | enum labels => exact hword "ENUM" (fun rest => rfl) _
  | list item =>
    rw [Bool.and_eq_false_iff]
    right
    by_contra hclose
    rw [Bool.not_eq_false] at hclose
    have hend := getLast?_of_closesAtEnd hclose
    obtain ⟨front, hfront⟩ := List.dropWhile_suffix (l := (list item).sql) (· ≠ '(')
    have hlast : ((list item).sql).getLast? = some ')' := by
      rw [← hfront, List.getLast?_append, hend]
      rfl
    have hlist : ((list item).sql).getLast? = some ']' := by
      rw [NativeSql.sql, List.getLast?_append]
      rfl
    rw [hlist] at hlast
    cases hlast
  | map key value => exact hword "MAP" (fun rest => rfl) _
  | struct fields => exact hword "STRUCT" (fun rest => rfl) _
  | union members => exact absurd rfl (h members)

/-! ### What is read back -/

/-- A name adds nothing to the brackets of its type. -/
theorem bracketed_memberText :
    Bracketed (name.text ++ ' ' :: type.sql) ↔ Bracketed type.sql := by
  have hname : outerDepth 0 (name.text ++ [' ']) = some 0 := by
    refine outerDepth_of_notMem ?_ ?_ (Or.inl ?_) <;>
    · rw [List.mem_append, not_or]
      exact ⟨notMem_name rfl, by decide⟩
  have hsplit : name.text ++ ' ' :: type.sql = name.text ++ [' '] ++ type.sql := by
    rw [List.append_assoc]
    rfl
  rw [Bracketed, hsplit, outerDepth_append, hname]
  rfl

end Texts

/-- **Declarations that are read back.** A type is read back if and only if, unless it is no union,
the text of every member has its parentheses in balance and no comma outside of them. -/
theorem readsBack_iff (type : NativeSql) :
    type.ReadsBack ↔
      ∀ members, type = .union members → ∀ m ∈ members, Bracketed m.2.sql := by
  constructor
  · rintro ⟨hmembers, htop⟩ members rfl m hm
    have hread := hmembers members rfl
    rw [unionMembers_union] at hread
    have hne : memberTexts members ≠ [] := by
      rw [memberTexts_eq_map]
      exact fun hnil => List.ne_nil_of_mem hm (List.map_eq_nil_iff.1 hnil)
    -- what is read of the parts is as long as the parts, so they are the members' texts
    have hback : ((members.map fun m => (m.1.text, m.2.sql)).map
        fun m : List Char × List Char => m.1 ++ ' ' :: m.2) = memberTexts members := by
      rw [memberTexts_eq_map, List.map_map]
      rfl
    have hlength : ((splitOuter 0 [] (List.intercalate [','] (memberTexts members))).map
        fun x => x.length + 1).sum = ((memberTexts members).map fun x => x.length + 1).sum := by
      rw [length_splitOuter, ← length_intercalate (c := ',') hne, List.length_nil, zero_add]
    have hparts : ((splitOuter 0 [] (List.intercalate [','] (memberTexts members))).filterMap
        memberOfPart).map (fun m => m.1 ++ ' ' :: m.2) =
          splitOuter 0 [] (List.intercalate [','] (memberTexts members)) := by
      refine map_filterMap_eq (fun x _ m hm => memberOfPart_sublist hm) ?_
      rw [hread, hlength, ← hback]
      simp only [List.map_map]
      exact le_of_eq rfl
    rw [hread, hback] at hparts
    have hclose := htop.2 ⟨members, rfl⟩
    rw [isTopLevelUnion_union] at hclose
    have htext : m.1.text ++ ' ' :: m.2.sql ∈ memberTexts members := by
      rw [memberTexts_eq_map]
      exact List.mem_map_of_mem hm
    exact bracketed_memberText.1 (bracketed_of_split hparts.symm hclose _ htext)
  · intro hbracketed
    constructor
    · rintro members rfl
      rw [unionMembers_union]
      cases members with
      | nil => rfl
      | cons m members =>
        rw [splitOuter_intercalate, memberTexts_eq_map, List.filterMap_map]
        · rw [← List.filterMap_eq_map]
          exact List.filterMap_congr fun m _ => memberOfPart_memberText
        · rw [memberTexts_eq_map]
          exact List.cons_ne_nil _ _
        · rw [memberTexts_eq_map]
          intro x hx
          obtain ⟨m, hm, rfl⟩ := List.mem_map.1 hx
          exact bracketed_memberText.2 (hbracketed _ rfl m hm)
    · constructor
      · intro htop
        by_contra hother
        rw [isTopLevelUnion_other fun members h => hother ⟨members, h⟩] at htop
        cases htop
      · rintro ⟨members, rfl⟩
        rw [isTopLevelUnion_union]
        refine closesAtEnd_intercalate fun x hx => ?_
        rw [memberTexts_eq_map] at hx
        obtain ⟨m, hm, rfl⟩ := List.mem_map.1 hx
        exact bracketed_memberText.2 (hbracketed _ rfl m hm)

/-! ### Texts without parentheses of their own -/

mutual

/-- The labels and the quoted names in a type. -/
def ownTexts : NativeSql → List (List Char)
  | .scalar _ => []
  | .decimal .. => []
  | .enum labels => labels
  | .list item => item.ownTexts
  | .map key value => key.ownTexts ++ value.ownTexts
  | .struct fields => ownFieldTexts fields
  | .union members => ownMemberTexts members

/-- Those in the fields of a structure. -/
def ownFieldTexts : List (FieldName × NativeSql) → List (List Char)
  | [] => []
  | (.bare _, type) :: fields => type.ownTexts ++ ownFieldTexts fields
  | (.quoted name, type) :: fields => name :: type.ownTexts ++ ownFieldTexts fields

/-- Those in the members of a union. -/
def ownMemberTexts : List (MemberName × NativeSql) → List (List Char)
  | [] => []
  | (_, type) :: members => type.ownTexts ++ ownMemberTexts members

end

/-- A text without parentheses. -/
def Flat (text : List Char) : Prop := '(' ∉ text ∧ ')' ∉ text

theorem outerDepth_inQuotes {quote : Char} {text : List Char} (hquote : quote ≠ '(' ∧ quote ≠ ')')
    (h : Flat text) : outerDepth 1 (inQuotes quote text) = some 1 := by
  refine outerDepth_of_notMem ?_ ?_ (Or.inr one_ne_zero)
  · intro hmem
    rcases mem_inQuotes hmem with hq | hmem
    · exact hquote.1 hq.symm
    · exact h.1 hmem
  · intro hmem
    rcases mem_inQuotes hmem with hq | hmem
    · exact hquote.2 hq.symm
    · exact h.2 hmem

theorem outerDepth_word {d : ℕ} {word : List Char} (hword : word.all isWord = true) :
    outerDepth d word = some d := by
  have hnot (c : Char) (hc : isWord c = false) : c ∉ word := by
    intro hmem
    rw [List.all_eq_true.1 hword c hmem] at hc
    cases hc
  exact outerDepth_of_notMem (hnot _ rfl) (hnot _ rfl) (Or.inl (hnot _ rfl))

theorem bracketed_inParens {word : String} {items : List (List Char)}
    (hword : word.toList.all isWord = true) (h : ∀ x ∈ items, outerDepth 1 x = some 1) :
    Bracketed (inParens word items) :=
  Bracketed.append (outerDepth_word hword) (bracketed_parens (outerDepth_intercalate h))

theorem isWord_digits (n : ℕ) : (digitsOf n).all isWord = true := by
  refine List.all_eq_true.2 fun c hc => ?_
  have hdigit : c.isDigit = true := Nat.isDigit_of_mem_toDigits (by decide) (by decide) hc
  rw [isWord, Char.isAlphanum, hdigit, Bool.or_true, Bool.true_or]

mutual

/-- **Texts without parentheses of their own** are bracketed, whatever commas and quotes they
have. -/
theorem bracketed_sql : (type : NativeSql) → (∀ x ∈ type.ownTexts, Flat x) → Bracketed type.sql
  | .scalar type, _ => outerDepth_word (scalar_word type).2
  | .decimal precision scale, _ => by
    refine bracketed_inParens (by rfl) fun x hx => ?_
    rcases List.mem_cons.1 hx with rfl | hx
    · exact outerDepth_word (isWord_digits _)
    · rw [List.mem_singleton.1 hx]
      exact outerDepth_word (isWord_digits _)
  | .enum labels, h => by
    refine bracketed_inParens (by rfl) fun x hx => ?_
    obtain ⟨label, hlabel, rfl⟩ := List.mem_map.1 hx
    exact outerDepth_inQuotes (by decide) (h label hlabel)
  | .list item, h => (bracketed_sql item h).append (by rfl)
  | .map key value, h => by
    have hkey : Bracketed key.sql :=
      bracketed_sql key fun x hx => h x (List.mem_append_left _ hx)
    have hvalue : Bracketed value.sql :=
      bracketed_sql value fun x hx => h x (List.mem_append_right _ hx)
    refine bracketed_inParens (by rfl) fun x hx => ?_
    rcases List.mem_cons.1 hx with rfl | hx
    · exact outerDepth_succ hkey
    · rw [List.mem_singleton.1 hx]
      exact outerDepth_succ hvalue
  | .struct fields, h => bracketed_inParens (by rfl) (outerDepth_fieldTexts fields h)
  | .union members, h => bracketed_inParens (by rfl) (outerDepth_memberTexts members h)

theorem outerDepth_fieldTexts : (fields : List (FieldName × NativeSql)) →
    (∀ x ∈ ownFieldTexts fields, Flat x) → ∀ x ∈ fieldTexts fields, outerDepth 1 x = some 1
  | [], _ => List.forall_mem_nil _
  | (.bare name, type) :: fields, h => by
    have htype : Bracketed type.sql :=
      bracketed_sql type fun x hx => h x (List.mem_append_left _ hx)
    refine List.forall_mem_cons.2 ⟨?_, outerDepth_fieldTexts fields fun x hx =>
      h x (List.mem_append_right _ hx)⟩
    exact outerDepth_succ (bracketed_memberText.2 htype)
  | (.quoted name, type) :: fields, h => by
    have htype : Bracketed type.sql := bracketed_sql type fun x hx =>
      h x (List.mem_append_left _ (List.mem_cons_of_mem _ hx))
    refine List.forall_mem_cons.2 ⟨?_, outerDepth_fieldTexts fields fun x hx =>
      h x (List.mem_append_right _ hx)⟩
    rw [outerDepth_append, FieldName.sql, outerDepth_inQuotes (by decide)
      (h name (List.mem_append_left _ List.mem_cons_self))]
    exact outerDepth_succ htype

theorem outerDepth_memberTexts : (members : List (MemberName × NativeSql)) →
    (∀ x ∈ ownMemberTexts members, Flat x) → ∀ x ∈ memberTexts members, outerDepth 1 x = some 1
  | [], _ => List.forall_mem_nil _
  | (name, type) :: members, h => by
    have htype : Bracketed type.sql :=
      bracketed_sql type fun x hx => h x (List.mem_append_left _ hx)
    refine List.forall_mem_cons.2 ⟨?_, outerDepth_memberTexts members fun x hx =>
      h x (List.mem_append_right _ hx)⟩
    exact outerDepth_succ (bracketed_memberText.2 htype)

end

end NativeSql

namespace Accounts

/-- The member for a type that a column had, and the one for its next type. -/
def oldMember : MemberName := ⟨"m_old".toList, by decide, by decide⟩

def newMember : MemberName := ⟨"m_new".toList, by decide, by decide⟩

/-- The mood of an account, a text before it became an enumeration. -/
def moodType : NativeSql :=
  .union [(oldMember, .scalar .varchar), (newMember, .enum [":)".toList, ":(".toList])]

theorem not_readsBack_mood : ¬ moodType.ReadsBack := by
  rintro ⟨hmembers, -⟩
  have hread := hmembers _ rfl
  revert hread
  decide

/-- A list of balances, each a numeric with its special values. -/
example : isTopLevelUnion
    (NativeSql.list (.union [(oldMember, .decimal 12 2), (newMember, .scalar .double)])).sql =
      false := by
  rfl

end Accounts

end CdcFlight
