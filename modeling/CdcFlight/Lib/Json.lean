import CdcFlight.Lib.NumberLiteral

/-!
# JSON texts

JSON documents with their number literals and with the members of objects in the order of the text,
the compact text that `json.dumps` writes of them without escaping other characters than it must,
and the reading of any JSON text as `json.loads` does it before its hooks make values of the
literals and objects.

A lone surrogate escape is no character and is refused.

## Main definitions

* `Lib.Json`, `Lib.Json.print`.
* `Lib.Json.parse`.

## Main results

* `Lib.Json.parse_print`: the written text reads as the document.
-/

namespace Lib

/-- A JSON document. -/
inductive Json
  | null
  | bool (b : Bool)
  | number (l : NumberLiteral)
  | string (text : List Char)
  | array (items : List Json)
  | object (members : List (List Char × Json))

namespace Json

/-! ### Writing -/

/-- A character inside of a string. -/
def escape (c : Char) : List Char :=
  if c = '"' then ['\\', '"']
  else if c = '\\' then ['\\', '\\']
  else if c = '\n' then ['\\', 'n']
  else if c = '\r' then ['\\', 'r']
  else if c = '\t' then ['\\', 't']
  else if c.toNat = 8 then ['\\', 'b']
  else if c.toNat = 12 then ['\\', 'f']
  else if c.toNat < 32 then
    ['\\', 'u', '0', '0', Nat.digitChar (c.toNat / 16), Nat.digitChar (c.toNat % 16)]
  else [c]

def printString (text : List Char) : List Char := '"' :: (text.flatMap escape ++ ['"'])

mutual

/-- The compact text of a document. -/
def print : Json → List Char
  | null => ['n', 'u', 'l', 'l']
  | bool true => ['t', 'r', 'u', 'e']
  | bool false => ['f', 'a', 'l', 's', 'e']
  | number l => l.text
  | string text => printString text
  | array items => '[' :: (printItems items ++ [']'])
  | object members => '{' :: (printMembers members ++ ['}'])

def printItems : List Json → List Char
  | [] => []
  | j :: items => print j ++ printMoreItems items

/-- Further items, each after a comma. -/
def printMoreItems : List Json → List Char
  | [] => []
  | j :: items => ',' :: (print j ++ printMoreItems items)

def printMembers : List (List Char × Json) → List Char
  | [] => []
  | (key, j) :: members => printString key ++ ':' :: (print j ++ printMoreMembers members)

/-- Further members, each after a comma. -/
def printMoreMembers : List (List Char × Json) → List Char
  | [] => []
  | (key, j) :: members =>
    ',' :: (printString key ++ ':' :: (print j ++ printMoreMembers members))

end

/-! ### Reading -/

/-- The white space of JSON. -/
def isSpace (c : Char) : Bool := c = ' ' || c = '\t' || c = '\n' || c = '\r'

def skip (text : List Char) : List Char := text.dropWhile isSpace

/-- A hexadecimal digit. -/
def hexDigit (c : Char) : Option ℕ :=
  if c.isDigit then some (c.toNat - 48)
  else if 'a' ≤ c ∧ c ≤ 'f' then some (c.toNat - 87)
  else if 'A' ≤ c ∧ c ≤ 'F' then some (c.toNat - 55)
  else none

def hexDigits (a b c d : Char) : Option ℕ := do
  return (((← hexDigit a) * 16 + (← hexDigit b)) * 16 + (← hexDigit c)) * 16 + (← hexDigit d)

/-- The escapes of one letter. -/
def unescape : Char → Option Char
  | '"' => some '"'
  | '\\' => some '\\'
  | '/' => some '/'
  | 'b' => some (Char.ofNat 8)
  | 'f' => some (Char.ofNat 12)
  | 'n' => some '\n'
  | 'r' => some '\r'
  | 't' => some '\t'
  | _ => none

/-- A character in front of what is read after it. -/
def push (c : Char) (read : Option (List Char × List Char)) : Option (List Char × List Char) :=
  read.map fun (text, rest) => (c :: text, rest)

/-- The character of a surrogate pair. -/
def surrogatePair (high low : ℕ) : Option Char :=
  if 0xd800 ≤ high ∧ high ≤ 0xdbff ∧ 0xdc00 ≤ low ∧ low ≤ 0xdfff then
    some (Char.ofNat (0x10000 + (high - 0xd800) * 0x400 + (low - 0xdc00)))
  else none

/-- The rest of a string, after its first quote. -/
def readString : List Char → Option (List Char × List Char)
  | [] => none
  | '"' :: rest => some ([], rest)
  | '\\' :: 'u' :: a :: b :: c :: d :: rest =>
    match hexDigits a b c d with
    | none => none
    | some n =>
      if n.isValidChar then push (Char.ofNat n) (readString rest)
      else
        match rest with
        | '\\' :: 'u' :: a' :: b' :: c' :: d' :: rest =>
          match (hexDigits a' b' c' d').bind (surrogatePair n) with
          | none => none
          | some char => push char (readString rest)
        | _ => none
  | '\\' :: c :: rest =>
    match unescape c with
    | none => none
    | some char => push char (readString rest)
  | c :: rest => if c.toNat < 32 then none else push c (readString rest)

mutual

/-- A document at the start of a text, and the rest. The fuel bounds the number of documents that
are read one after and inside of another. -/
def readValue : ℕ → List Char → Option (Json × List Char)
  | 0, _ => none
  | n + 1, text =>
    match text with
    | 'n' :: 'u' :: 'l' :: 'l' :: rest => some (null, rest)
    | 't' :: 'r' :: 'u' :: 'e' :: rest => some (bool true, rest)
    | 'f' :: 'a' :: 'l' :: 's' :: 'e' :: rest => some (bool false, rest)
    | '"' :: rest => (readString rest).map fun (text, rest) => (string text, rest)
    | '[' :: rest =>
      match skip rest with
      | ']' :: rest => some (array [], rest)
      | rest => (readItems n rest).map fun (items, rest) => (array items, rest)
    | '{' :: rest =>
      match skip rest with
      | '}' :: rest => some (object [], rest)
      | rest => (readMembers n rest).map fun (members, rest) => (object members, rest)
    | text => (NumberLiteral.read text).map fun (l, rest) => (number l, rest)

/-- The items of an array, from the first to the closing bracket. -/
def readItems : ℕ → List Char → Option (List Json × List Char)
  | 0, _ => none
  | n + 1, text => do
    let (j, rest) ← readValue n text
    match skip rest with
    | ',' :: rest => do
      let (items, rest) ← readItems n (skip rest)
      return (j :: items, rest)
    | ']' :: rest => some ([j], rest)
    | _ => none

/-- The members of an object, from the first to the closing brace. -/
def readMembers : ℕ → List Char → Option (List (List Char × Json) × List Char)
  | n + 1, '"' :: text => do
    let (key, rest) ← readString text
    match skip rest with
    | ':' :: rest => do
      let (j, rest) ← readValue n (skip rest)
      match skip rest with
      | ',' :: rest => do
        let (members, rest) ← readMembers n (skip rest)
        return ((key, j) :: members, rest)
      | '}' :: rest => some ([(key, j)], rest)
      | _ => none
    | _ => none
  | _, _ => none

end

/-- The document of a text. -/
def parse (text : List Char) : Option Json := do
  let (j, rest) ← readValue (2 * text.length + 1) (skip text)
  if skip rest = [] then some j else none

/-! ### Strings -/

section Strings

variable {rest : List Char}

theorem readString_of_plain {c : Char} (hquote : c ≠ '"') (hescape : c ≠ '\\')
    (hcontrol : ¬c.toNat < 32) : readString (c :: rest) = push c (readString rest) := by
  rw [readString.eq_def]
  split
  · contradiction
  · rename_i heq
    exact absurd (List.cons.inj heq).1 hquote
  · rename_i heq
    exact absurd (List.cons.inj heq).1 hescape
  · rename_i heq
    exact absurd (List.cons.inj heq).1 hescape
  · rename_i heq
    obtain ⟨rfl, rfl⟩ := List.cons.inj heq
    rw [if_neg hcontrol]

theorem hexDigits_control : ∀ n < 32,
    hexDigits '0' '0' (Nat.digitChar (n / 16)) (Nat.digitChar (n % 16)) = some n := by decide

/-- An escaped character is read as the character. -/
theorem readString_escape (c : Char) :
    readString (escape c ++ rest) = push c (readString rest) := by
  unfold escape
  split_ifs with h₁ h₂ h₃ h₄ h₅ h₆ h₇ h₈
  · rw [h₁]
    rfl
  · rw [h₂]
    rfl
  · rw [h₃]
    rfl
  · rw [h₄]
    rfl
  · rw [h₅]
    rfl
  · rw [← Char.ofNat_toNat c, h₆]
    rfl
  · rw [← Char.ofNat_toNat c, h₇]
    rfl
  · have hvalid : c.toNat.isValidChar := c.valid
    simp only [List.cons_append, List.nil_append]
    rw [readString, hexDigits_control c.toNat h₈]
    dsimp only
    rw [if_pos hvalid, Char.ofNat_toNat]
  · exact readString_of_plain h₁ h₂ h₈

theorem readString_printString (text : List Char) :
    readString (text.flatMap escape ++ '"' :: rest) = some (text, rest) := by
  induction text with
  | nil => rfl
  | cons c text ih =>
    rw [List.flatMap_cons, List.append_assoc, readString_escape, ih]
    rfl

end Strings

/-! ### Documents -/

section Documents

/-- White space and closing brackets, which start no document. -/
def startsNothing (c : Char) : Bool := isSpace c || c = ']' || c = '}'

/-- The first character of a document. -/
theorem head_print (j : Json) : ∃ c text, print j = c :: text ∧ startsNothing c = false := by
  rcases j with _ | _ | l | text | items | members
  · exact ⟨_, _, rfl, rfl⟩
  · rename_i b
    cases b <;> exact ⟨_, _, rfl, rfl⟩
  · obtain ⟨c, text, htext, hc⟩ := l.head_text
    refine ⟨c, text, htext, ?_⟩
    rcases hc with rfl | hc
    · rfl
    · by_contra h
      rw [Bool.not_eq_false, startsNothing, isSpace] at h
      simp only [Bool.or_eq_true, decide_eq_true_eq] at h
      rcases h with ((((rfl | rfl) | rfl) | rfl) | rfl) | rfl <;> exact absurd hc (by decide)
  · exact ⟨_, _, rfl, rfl⟩
  · rw [print]
    exact ⟨_, _, rfl, rfl⟩
  · rw [print]
    exact ⟨_, _, rfl, rfl⟩

theorem skip_cons {c : Char} {text : List Char} (h : isSpace c = false) :
    skip (c :: text) = c :: text :=
  List.dropWhile_cons_of_neg (by rw [h]; exact Bool.false_ne_true)

theorem isSpace_of_startsNothing {c : Char} (h : startsNothing c = false) : isSpace c = false := by
  rw [startsNothing, Bool.or_eq_false_iff, Bool.or_eq_false_iff] at h
  exact h.1.1

theorem skip_print (j : Json) (rest : List Char) :
    skip (print j ++ rest) = print j ++ rest := by
  obtain ⟨c, text, hprint, hc⟩ := head_print j
  rw [hprint, List.cons_append, skip_cons (isSpace_of_startsNothing hc)]

/-- Reading a number literal. -/
theorem readValue_number {n : ℕ} {l : NumberLiteral} {rest : List Char}
    (hrest : NumberLiteral.Stops rest) :
    readValue (n + 1) (l.text ++ rest) = some (number l, rest) := by
  have hread := l.read_append hrest
  obtain ⟨c, text, htext, hc⟩ := l.head_text
  have hne (d : Char) (hd : d.isDigit = false) (hminus : d ≠ '-') : c ≠ d := by
    rintro rfl
    rcases hc with hc | hc
    · exact hminus hc
    · rw [hc] at hd
      cases hd
  rw [htext, List.cons_append] at hread ⊢
  rw [readValue.eq_def]
  dsimp only
  split <;> rename_i heq
  · exact absurd (List.cons.inj heq).1 (hne 'n' rfl (by decide))
  · exact absurd (List.cons.inj heq).1 (hne 't' rfl (by decide))
  · exact absurd (List.cons.inj heq).1 (hne 'f' rfl (by decide))
  · exact absurd (List.cons.inj heq).1 (hne '"' rfl (by decide))
  · exact absurd (List.cons.inj heq).1 (hne '[' rfl (by decide))
  · exact absurd (List.cons.inj heq).1 (hne '{' rfl (by decide))
  · rw [hread, Option.map_some]

mutual

/-- The fuel that reading a document takes. -/
def cost : Json → ℕ
  | null | bool _ | number _ | string _ => 1
  | array items => 1 + costItems items
  | object members => 1 + costMembers members

def costItems : List Json → ℕ
  | [] => 0
  | j :: items => 1 + cost j + costItems items

def costMembers : List (List Char × Json) → ℕ
  | [] => 0
  | (_, j) :: members => 1 + cost j + costMembers members

end

theorem stops_moreItems (items : List Json) (rest : List Char) :
    NumberLiteral.Stops (printMoreItems items ++ ']' :: rest) := by
  cases items with
  | nil =>
    rintro c ⟨⟩
    rfl
  | cons j items =>
    rw [printMoreItems]
    rintro c ⟨⟩
    rfl

theorem stops_moreMembers (members : List (List Char × Json)) (rest : List Char) :
    NumberLiteral.Stops (printMoreMembers members ++ '}' :: rest) := by
  cases members with
  | nil =>
    rintro c ⟨⟩
    rfl
  | cons member members =>
    rw [printMoreMembers]
    rintro c ⟨⟩
    rfl

/-- An array whose first item follows the bracket. -/
theorem readValue_array {n : ℕ} {j : Json} {items : List Json} {text rest : List Char}
    (h : readItems n (print j ++ text) = some (items, rest)) :
    readValue (n + 1) ('[' :: (print j ++ text)) = some (array items, rest) := by
  obtain ⟨c, text', hprint, hc⟩ := head_print j
  rw [readValue, skip_print]
  split
  · rename_i heq
    rw [hprint, List.cons_append] at heq
    rw [(List.cons.inj heq).1] at hc
    cases hc
  · rw [h, Option.map_some]

/-- An object whose first key follows the brace. -/
theorem readValue_object {n : ℕ} {members : List (List Char × Json)} {text rest : List Char}
    (h : readMembers n ('"' :: text) = some (members, rest)) :
    readValue (n + 1) ('{' :: '"' :: text) = some (object members, rest) := by
  rw [readValue, skip_cons rfl]
  change (readMembers n ('"' :: text)).map _ = _
  rw [h, Option.map_some]

/-- An item and what follows it. -/
theorem readItems_succ {n : ℕ} {j : Json} {text rest : List Char}
    (h : readValue n text = some (j, rest)) :
    readItems (n + 1) text =
      match skip rest with
      | ',' :: rest => (readItems n (skip rest)).map fun (items, rest) => (j :: items, rest)
      | ']' :: rest => some ([j], rest)
      | _ => none := by
  rw [readItems, h]
  dsimp only [bind, Option.bind]
  split
  · cases readItems n _ <;> rfl
  · rfl
  · rfl

/-- A member and what follows it. -/
theorem readMembers_succ {n : ℕ} {key : List Char} {j : Json} {text rest : List Char}
    (h : readValue n (skip text) = some (j, rest)) :
    readMembers (n + 1) (printString key ++ ':' :: text) =
      match skip rest with
      | ',' :: rest => (readMembers n (skip rest)).map fun (members, rest) =>
        ((key, j) :: members, rest)
      | '}' :: rest => some ([(key, j)], rest)
      | _ => none := by
  rw [printString, List.cons_append, List.append_assoc, List.cons_append, List.nil_append,
    readMembers, readString_printString]
  simp only [Option.bind_eq_bind, Option.bind_some,
    skip_cons (show isSpace ':' = false from rfl), h]
  split
  · cases readMembers n _ <;> rfl
  · rfl
  · rfl

/-- Documents are read with a fuel. -/
def ReadsValues (n : ℕ) : Prop := ∀ j rest, cost j ≤ n → NumberLiteral.Stops rest →
  readValue n (print j ++ rest) = some (j, rest)

/-- Items of an array are. -/
def ReadsItems (n : ℕ) : Prop := ∀ j items rest, costItems (j :: items) ≤ n →
  readItems n (print j ++ (printMoreItems items ++ ']' :: rest)) = some (j :: items, rest)

/-- Members of an object are. -/
def ReadsMembers (n : ℕ) : Prop := ∀ key j members rest, costMembers ((key, j) :: members) ≤ n →
  readMembers n (printString key ++ ':' :: (print j ++ (printMoreMembers members ++ '}' :: rest))) =
    some ((key, j) :: members, rest)

section Steps

variable {n : ℕ}

theorem readsValues_succ (hitems : ReadsItems n) (hmembers : ReadsMembers n) :
    ReadsValues (n + 1) := by
  intro j rest hn hrest
  cases j with
  | null => rfl
  | bool b => cases b <;> rfl
  | number l => exact readValue_number hrest
  | string text =>
    rw [print, printString, List.cons_append, List.append_assoc, readValue]
    rw [List.singleton_append, readString_printString, Option.map_some]
  | array items =>
    rw [cost] at hn
    rw [print, List.cons_append, List.append_assoc, List.singleton_append]
    cases items with
    | nil => rfl
    | cons j items =>
      rw [printItems, List.append_assoc]
      exact readValue_array (hitems j items rest (by omega))
  | object members =>
    rw [cost] at hn
    rw [print, List.cons_append, List.append_assoc, List.singleton_append]
    cases members with
    | nil => rfl
    | cons member members =>
      obtain ⟨key, j⟩ := member
      rw [printMembers, List.append_assoc, List.cons_append, List.append_assoc]
      exact readValue_object (hmembers key j members rest (by omega))

theorem readsItems_succ (hvalues : ReadsValues n) (hitems : ReadsItems n) :
    ReadsItems (n + 1) := by
  intro j items rest hn
  rw [costItems] at hn
  rw [readItems_succ (hvalues j _ (by omega) (stops_moreItems items rest))]
  cases items with
  | nil => rfl
  | cons j' items =>
    rw [printMoreItems, List.cons_append, skip_cons rfl, List.append_assoc]
    change (readItems n (skip _)).map _ = _
    rw [skip_print, hitems j' items rest (by omega), Option.map_some]

theorem skip_printString (key text : List Char) :
    skip (printString key ++ text) = printString key ++ text := by
  rw [printString, List.cons_append, skip_cons rfl]

theorem readsMembers_succ (hvalues : ReadsValues n) (hmembers : ReadsMembers n) :
    ReadsMembers (n + 1) := by
  intro key j members rest hn
  rw [costMembers] at hn
  have hvalue : readValue n (skip (print j ++ (printMoreMembers members ++ '}' :: rest))) =
      some (j, printMoreMembers members ++ '}' :: rest) := by
    rw [skip_print]
    exact hvalues j _ (by omega) (stops_moreMembers members rest)
  rw [readMembers_succ hvalue]
  cases members with
  | nil => rfl
  | cons member members =>
    obtain ⟨key', j'⟩ := member
    rw [printMoreMembers, List.cons_append, skip_cons rfl, List.append_assoc, List.cons_append,
      List.append_assoc]
    change (readMembers n (skip _)).map _ = _
    rw [skip_printString, hmembers key' j' members rest (by omega), Option.map_some]

end Steps

/-- A document is read from its text, whatever follows the text. -/
theorem reads (n : ℕ) : ReadsValues n ∧ ReadsItems n ∧ ReadsMembers n := by
  induction n with
  | zero =>
    refine ⟨fun j rest hn _ => ?_, fun j items rest hn => ?_, fun key j members rest hn => ?_⟩
    · cases j <;> simp [cost] at hn
    · simp [costItems] at hn
    · simp [costMembers] at hn
  | succ n ih =>
    obtain ⟨hvalues, hitems, hmembers⟩ := ih
    exact ⟨readsValues_succ hitems hmembers, readsItems_succ hvalues hitems,
      readsMembers_succ hvalues hmembers⟩

mutual

/-- The fuel of `parse` is enough for a written text. -/
theorem cost_lt_length (j : Json) : cost j + 1 ≤ 2 * (print j).length := by
  cases j with
  | null | string _ =>
    simp only [cost, print, printString, List.length_cons]
    omega
  | bool b =>
    cases b <;>
    · simp only [cost, print, List.length_cons]
      omega
  | number l =>
    obtain ⟨c, text, htext, -⟩ := l.head_text
    simp only [cost, print, htext, List.length_cons]
    omega
  | array items =>
    have hitems := costItems_le_length items
    simp only [cost, print, List.length_cons, List.length_append]
    omega
  | object members =>
    have hmembers := costMembers_le_length members
    simp only [cost, print, List.length_cons, List.length_append]
    omega

theorem costItems_le_length (items : List Json) :
    costItems items ≤ 2 * (printItems items).length := by
  cases items with
  | nil => exact Nat.zero_le _
  | cons j items =>
    have hj := cost_lt_length j
    have hitems := costMoreItems_le_length items
    simp only [costItems, printItems, List.length_append]
    omega

theorem costMoreItems_le_length (items : List Json) :
    costItems items ≤ 2 * (printMoreItems items).length := by
  cases items with
  | nil => exact Nat.zero_le _
  | cons j items =>
    have hj := cost_lt_length j
    have hitems := costMoreItems_le_length items
    simp only [costItems, printMoreItems, List.length_cons, List.length_append]
    omega

theorem costMembers_le_length (members : List (List Char × Json)) :
    costMembers members ≤ 2 * (printMembers members).length := by
  cases members with
  | nil => exact Nat.zero_le _
  | cons member members =>
    obtain ⟨key, j⟩ := member
    have hj := cost_lt_length j
    have hmembers := costMoreMembers_le_length members
    simp only [costMembers, printMembers, List.length_cons, List.length_append]
    omega

theorem costMoreMembers_le_length (members : List (List Char × Json)) :
    costMembers members ≤ 2 * (printMoreMembers members).length := by
  cases members with
  | nil => exact Nat.zero_le _
  | cons member members =>
    obtain ⟨key, j⟩ := member
    have hj := cost_lt_length j
    have hmembers := costMoreMembers_le_length members
    simp only [costMembers, printMoreMembers, List.length_cons, List.length_append]
    omega

end

/-- **A document is what its text reads as.** -/
theorem parse_print (j : Json) : parse (print j) = some j := by
  have hcost := cost_lt_length j
  have hread : readValue (2 * (print j).length + 1) (print j ++ []) = some (j, []) :=
    (reads _).1 j [] (by omega) nofun
  have hskip := skip_print j []
  rw [List.append_nil] at hread hskip
  rw [parse, hskip, hread]
  rfl

theorem print_injective : Function.Injective print := by
  intro j j' h
  have hparse := parse_print j
  rw [h, parse_print j'] at hparse
  exact (Option.some.inj hparse).symm

end Documents

end Json

end Lib
