import CdcFlight.Lib.Dict
import CdcFlight.Lib.Json

/-!
# What JSON documents mean

The value that a document stands for where objects are maps: numbers are numbers whatever their
digits, and an object gives a key the value of its last member with the key. Equality of documents
as values is that of a database type that keeps no more than the value.

Objects are brought to an order by sorting their members by their keys.

## Main definitions

* `Lib.lastValue`, `Lib.Dict.ofPairs`: the last pairs with each key.
* `Lib.sortByKey`: pairs in the order of their keys.
* `Lib.Json.meaning`: the value of a document.

## Main results

* `Lib.eq_of_lastValue_eq`: sorted pairs are equal when they give each key the same value.
* `Lib.Json.meaning_object_eq_iff`: objects are equal when they give each key the same value.
-/

namespace Lib

universe u v w

/-! ### Pairs -/

section Pairs

variable {κ : Type u} {ν : Type v} {μ : Type w}

theorem lookup_map_snd [BEq κ] (f : ν → μ) (pairs : List (κ × ν)) (k : κ) :
    (pairs.map fun p => (p.1, f p.2)).lookup k = (pairs.lookup k).map f := by
  induction pairs with
  | nil => rfl
  | cons p pairs ih =>
    rw [List.map_cons, List.lookup_cons, List.lookup_cons, ih]
    cases k == p.1 <;> rfl

section LastValue

variable [DecidableEq κ]

/-- The value of the last pair with a key. -/
def lastValue (pairs : List (κ × ν)) (k : κ) : Option ν := pairs.reverse.lookup k

theorem lastValue_map (f : ν → μ) (pairs : List (κ × ν)) (k : κ) :
    lastValue (pairs.map fun p => (p.1, f p.2)) k = (lastValue pairs k).map f := by
  rw [lastValue, ← List.map_reverse, lookup_map_snd]
  rfl

/-- A value under a key is that of some pair. -/
theorem mem_of_lastValue {pairs : List (κ × ν)} {k : κ} {v : ν} (h : lastValue pairs k = some v) :
    (k, v) ∈ pairs := by
  rw [lastValue, List.lookup_eq_some_iff] at h
  obtain ⟨before, after, hpairs, -⟩ := h
  rw [← List.mem_reverse, hpairs]
  exact List.mem_append_right _ List.mem_cons_self

/-- Under distinct keys the last pair is the only one. -/
theorem lastValue_eq_some_iff {pairs : List (κ × ν)} (h : (pairs.map Prod.fst).Nodup) {k : κ}
    {v : ν} : lastValue pairs k = some v ↔ (k, v) ∈ pairs := by
  have hreverse : (pairs.reverse.map Prod.fst).Nodup := by
    rw [List.map_reverse, List.nodup_reverse]
    exact h
  rw [lastValue, Dict.lookup_eq_some_iff_mem hreverse, List.mem_reverse]

/-- Assignments one after another. -/
def Dict.ofPairs (pairs : List (κ × ν)) : Dict κ ν :=
  pairs.foldl (fun d p => d.set p.1 p.2) ∅

theorem Dict.get?_ofPairs (pairs : List (κ × ν)) (k : κ) :
    (Dict.ofPairs pairs).get? k = lastValue pairs k := by
  induction pairs using List.reverseRecOn with
  | nil => rfl
  | append_singleton pairs p ih =>
    have hset : Dict.ofPairs (pairs ++ [p]) = (Dict.ofPairs pairs).set p.1 p.2 := by
      rw [Dict.ofPairs, List.foldl_append]
      rfl
    rw [hset, Dict.get?_set, ih, lastValue, lastValue, List.reverse_concat, List.lookup_cons]
    by_cases hk : k = p.1
    · rw [if_pos hk, beq_iff_eq.2 hk]
    · rw [if_neg hk, beq_eq_false_iff_ne.2 hk]

end LastValue

/-- Lists related item by item through a third. -/
theorem forall₂_comp_iff {α : Type u} {β : Type v} {γ : Type w} {R : α → β → Prop}
    {S : β → γ → Prop} {l : List α} {l' : List γ} :
    List.Forall₂ (Relation.Comp R S) l l' ↔
      ∃ mid, List.Forall₂ R l mid ∧ List.Forall₂ S mid l' := by
  constructor
  · intro h
    induction h with
    | nil => exact ⟨[], .nil, .nil⟩
    | cons hab _ ih =>
      obtain ⟨b, hR, hS⟩ := hab
      obtain ⟨mid, hmid, hmid'⟩ := ih
      exact ⟨b :: mid, .cons hR hmid, .cons hS hmid'⟩
  · rintro ⟨mid, hR, hS⟩
    induction hR generalizing l' with
    | nil =>
      cases hS
      exact .nil
    | cons hab _ ih =>
      obtain _ | ⟨hbc, hS⟩ := hS
      exact .cons ⟨_, hab, hbc⟩ (ih hS)

theorem exists_forall₂_iff {α : Type u} {β : Type v} {R : α → β → Prop} {l : List α} :
    (∃ l', List.Forall₂ R l l') ↔ ∀ a ∈ l, ∃ b, R a b := by
  induction l with
  | nil => exact iff_of_true ⟨[], .nil⟩ nofun
  | cons a l ih =>
    rw [List.forall_mem_cons, ← ih]
    constructor
    · rintro ⟨_, _ | ⟨hb, hl⟩⟩
      exact ⟨⟨_, hb⟩, _, hl⟩
    · rintro ⟨⟨b, hb⟩, l', hl⟩
      exact ⟨b :: l', .cons hb hl⟩

/-! ### Values related under the same keys -/

section ValuesRel

variable {R : ν → μ → Prop} {pairs : List (κ × ν)} {pairs' : List (κ × μ)}

/-- The same keys in the same order, with related values. -/
def ValuesRel (R : ν → μ → Prop) : List (κ × ν) → List (κ × μ) → Prop :=
  List.Forall₂ fun p q => p.1 = q.1 ∧ R p.2 q.2

theorem ValuesRel.keys_eq (h : ValuesRel R pairs pairs') :
    pairs.map Prod.fst = pairs'.map Prod.fst := by
  induction h with
  | nil => rfl
  | cons hpq _ ih => rw [List.map_cons, List.map_cons, hpq.1, ih]

theorem ValuesRel.lastValue [DecidableEq κ] (h : ValuesRel R pairs pairs') (k : κ) :
    Option.Rel R (lastValue pairs k) (lastValue pairs' k) := by
  have hreverse : ValuesRel R pairs.reverse pairs'.reverse := List.rel_reverse h
  unfold Lib.lastValue
  revert hreverse
  generalize pairs.reverse = l
  generalize pairs'.reverse = l'
  intro hreverse
  induction hreverse with
  | nil => exact .none
  | @cons p q _ _ hpq _ ih =>
    rw [List.lookup_cons, List.lookup_cons, ← hpq.1]
    cases k == p.1 with
    | true => exact .some hpq.2
    | false => exact ih

theorem exists_valuesRel_iff :
    (∃ pairs' : List (κ × μ), ValuesRel R pairs pairs') ↔ ∀ p ∈ pairs, ∃ b, R p.2 b := by
  rw [ValuesRel, exists_forall₂_iff]
  refine forall₂_congr fun p _ => ⟨?_, ?_⟩
  · rintro ⟨q, -, hq⟩
    exact ⟨q.2, hq⟩
  · rintro ⟨b, hb⟩
    exact ⟨(p.1, b), rfl, hb⟩

/-- Values that can be rewritten once more, where no later pair has their key. -/
theorem exists_valuesRel_ofPairs [DecidableEq κ] {ξ : Type*} {S : μ → ξ → Prop}
    (hR : ValuesRel R pairs pairs')
    (h : ∀ k a b, lastValue pairs k = some a → R a b → ∃ c, S b c) :
    ∃ outs, ValuesRel S (Dict.ofPairs pairs').items outs := by
  refine exists_valuesRel_iff.2 fun p hp => ?_
  have hlast : lastValue pairs' p.1 = some p.2 := by
    rw [← Dict.get?_ofPairs, Dict.get?_eq_some_iff]
    exact hp
  have hrel := hR.lastValue p.1
  rw [hlast] at hrel
  generalize ha : lastValue pairs p.1 = a at hrel
  obtain hab | _ := hrel
  exact h p.1 _ p.2 ha hab

end ValuesRel

section Sorted

variable [LinearOrder κ]

/-- Pairs in the order of their keys. -/
def sortByKey (pairs : List (κ × ν)) : List (κ × ν) := pairs.mergeSort fun p q => p.1 ≤ q.1

theorem sortByKey_perm (pairs : List (κ × ν)) : (sortByKey pairs).Perm pairs :=
  List.mergeSort_perm pairs _

/-- Distinct keys are in strict order. -/
theorem pairwise_sortByKey {pairs : List (κ × ν)} (h : (pairs.map Prod.fst).Nodup) :
    (sortByKey pairs).Pairwise fun p q => p.1 < q.1 := by
  have hsorted : (sortByKey pairs).Pairwise fun p q => p.1 ≤ q.1 := by
    refine (@List.pairwise_mergeSort _ (fun p q : κ × ν => decide (p.1 ≤ q.1)) ?_ ?_ pairs).imp
      fun hpq => of_decide_eq_true hpq
    · intro p q r hpq hqr
      exact decide_eq_true ((of_decide_eq_true hpq).trans (of_decide_eq_true hqr))
    · intro p q
      rw [Bool.or_eq_true, decide_eq_true_iff, decide_eq_true_iff]
      exact le_total _ _
  have hnodup : ((sortByKey pairs).map Prod.fst).Nodup :=
    ((sortByKey_perm pairs).map Prod.fst).nodup_iff.2 h
  refine (hsorted.and (List.pairwise_map.1 hnodup)).imp fun hpq => ?_
  exact lt_of_le_of_ne hpq.1 hpq.2

theorem nodup_of_pairwise {pairs : List (κ × ν)} (h : pairs.Pairwise fun p q => p.1 < q.1) :
    (pairs.map Prod.fst).Nodup :=
  List.pairwise_map.2 (h.imp fun hpq => hpq.ne)

end Sorted

section SortedValues

variable [LinearOrder κ] [DecidableEq κ] {pairs pairs' : List (κ × ν)}

theorem lastValue_sortByKey (h : (pairs.map Prod.fst).Nodup) (k : κ) :
    lastValue (sortByKey pairs) k = lastValue pairs k := by
  have hnodup : ((sortByKey pairs).map Prod.fst).Nodup :=
    ((sortByKey_perm pairs).map Prod.fst).nodup_iff.2 h
  refine Option.ext fun v => ?_
  rw [lastValue_eq_some_iff hnodup, lastValue_eq_some_iff h, (sortByKey_perm pairs).mem_iff]

/-- **Sorted pairs are equal when they give each key the same value.** -/
theorem eq_of_lastValue_eq (h : pairs.Pairwise fun p q => p.1 < q.1)
    (h' : pairs'.Pairwise fun p q => p.1 < q.1)
    (hvalue : ∀ k, lastValue pairs k = lastValue pairs' k) : pairs = pairs' := by
  have hmem (p : κ × ν) : p ∈ pairs ↔ p ∈ pairs' := by
    rw [← lastValue_eq_some_iff (nodup_of_pairwise h), hvalue,
      lastValue_eq_some_iff (nodup_of_pairwise h')]
  have hperm : pairs.Perm pairs' :=
    (List.perm_ext_iff_of_nodup (List.Nodup.of_map _ (nodup_of_pairwise h))
      (List.Nodup.of_map _ (nodup_of_pairwise h'))).2 hmem
  exact hperm.eq_of_pairwise (fun p q _ _ hpq hqp => absurd hpq hqp.asymm) h h'

/-- A dictionary of rewritten values, rewritten again and brought to the order of its keys. -/
theorem sortByKey_valuesRel {R : ν → μ → Prop} {ξ : Type*} {S : μ → ξ → Prop}
    {mid : List (κ × μ)} {outs : List (κ × ξ)} (hR : ValuesRel R pairs mid)
    (hS : ValuesRel S (Dict.ofPairs mid).items outs) :
    ((sortByKey outs).Pairwise fun p q => p.1 < q.1) ∧
      ∀ k, Option.Rel (Relation.Comp R S) (lastValue pairs k) (lastValue (sortByKey outs) k) := by
  have hnodup : (outs.map Prod.fst).Nodup := hS.keys_eq ▸ (Dict.ofPairs mid).nodup
  refine ⟨pairwise_sortByKey hnodup, fun k => ?_⟩
  have hfirst := hR.lastValue k
  have hsecond := hS.lastValue k
  have hdict : lastValue (Dict.ofPairs mid).items k = lastValue mid k := by
    refine Option.ext fun v => ?_
    rw [lastValue_eq_some_iff (Dict.ofPairs mid).nodup, ← Dict.get?_eq_some_iff,
      Dict.get?_ofPairs]
  rw [hdict] at hsecond
  rw [lastValue_sortByKey hnodup]
  revert hfirst hsecond
  generalize lastValue pairs k = a
  generalize lastValue mid k = b
  generalize lastValue outs k = c
  rintro (hab | _) hbc
  · obtain hbc | _ := hbc
    exact .some ⟨_, hab, hbc⟩
  · cases hbc
    exact .none

end SortedValues

end Pairs

/-! ### Documents -/

/-- The value of a JSON document. -/
inductive JsonMeaning
  | null
  | bool (b : Bool)
  | number (q : ℚ)
  | string (text : List Char)
  | array (items : List JsonMeaning)
  | object (get : List Char → Option JsonMeaning)

namespace Json

mutual

/-- What a document means. -/
def meaning : Json → JsonMeaning
  | .null => .null
  | .bool b => .bool b
  | .number l => .number l.toDecimal.value
  | .string text => .string text
  | .array items => .array (meaningItems items)
  | .object members => .object (lastValue (meaningMembers members))

def meaningItems : List Json → List JsonMeaning
  | [] => []
  | j :: items => meaning j :: meaningItems items

def meaningMembers : List (List Char × Json) → List (List Char × JsonMeaning)
  | [] => []
  | (key, j) :: members => (key, meaning j) :: meaningMembers members

end

theorem meaningItems_eq (items : List Json) : meaningItems items = items.map meaning := by
  induction items with
  | nil => rfl
  | cons j items ih => rw [meaningItems, ih, List.map_cons]

theorem meaningMembers_eq (members : List (List Char × Json)) :
    meaningMembers members = members.map fun p => (p.1, meaning p.2) := by
  induction members with
  | nil => rfl
  | cons p members ih => rw [meaningMembers, ih, List.map_cons]

theorem meaning_array (items : List Json) :
    (array items).meaning = .array (items.map meaning) := by
  rw [meaning, meaningItems_eq]

theorem meaning_object (members : List (List Char × Json)) :
    (object members).meaning = .object fun key => (lastValue members key).map meaning := by
  rw [meaning, meaningMembers_eq]
  exact congrArg JsonMeaning.object (funext (lastValue_map meaning members))

theorem meaning_object_eq_iff {members members' : List (List Char × Json)} :
    (object members).meaning = (object members').meaning ↔
      ∀ key, (lastValue members key).map meaning = (lastValue members' key).map meaning := by
  rw [meaning_object, meaning_object, JsonMeaning.object.injEq, funext_iff]

/-- Induction over the documents inside of a document. -/
theorem induct {motive : Json → Prop} (null : motive .null) (bool : ∀ b, motive (.bool b))
    (number : ∀ l, motive (.number l)) (string : ∀ text, motive (.string text))
    (array : ∀ items, (∀ j ∈ items, motive j) → motive (.array items))
    (object : ∀ members, (∀ p ∈ members, motive p.2) → motive (.object members)) : ∀ j, motive j
  | .null => null
  | .bool b => bool b
  | .number l => number l
  | .string text => string text
  | .array items => array items fun j _ => induct null bool number string array object j
  | .object members => object members fun p _ =>
    induct null bool number string array object p.2
  termination_by j => sizeOf j
  decreasing_by
    all_goals simp_wf
    · have := List.sizeOf_lt_of_mem ‹j ∈ items›
      omega
    · have hlt := List.sizeOf_lt_of_mem ‹p ∈ members›
      obtain ⟨key, j⟩ := p
      simp only [Prod.mk.sizeOf_spec] at hlt ⊢
      omega

/-- A number stands in a document. -/
inductive Holds (l : NumberLiteral) : Json → Prop
  | number : Holds l (.number l)
  | array {items : List Json} {j : Json} (hj : j ∈ items) (h : Holds l j) : Holds l (.array items)
  | object {members : List (List Char × Json)} {p : List Char × Json} (hp : p ∈ members)
      (h : Holds l p.2) : Holds l (.object members)

/-- A number stands in a document and is not under a key that comes again. -/
inductive Keeps (l : NumberLiteral) : Json → Prop
  | number : Keeps l (.number l)
  | array {items : List Json} {j : Json} (hj : j ∈ items) (h : Keeps l j) : Keeps l (.array items)
  | object {members : List (List Char × Json)} {key : List Char} {j : Json}
      (hj : lastValue members key = some j) (h : Keeps l j) : Keeps l (.object members)

end Json

end Lib
