import Mathlib

/-!
# Insertion-ordered dictionaries

A dictionary is a list of key/value pairs without repeated keys, in insertion order. Assigning to
a present key replaces its value in place; assigning to a new key appends the pair. These are the
iteration and update rules of dictionaries in scripting languages, where the order in which pairs
were first written is the order in which they are read back.

## Main definitions

* `Lib.Dict`: the pairs together with the proof that no key repeats.
* `Lib.Dict.get?`, `Lib.Dict.set`, `Lib.Dict.erase`: lookup, assignment and removal.
* `Lib.Dict.filterMapValues`: rewrite or drop each value, keeping the order.
* `Lib.Dict.groupBy`: the elements of a list under their keys.
* `Lib.Dict.overlay`: assign the pairs of a second dictionary one after another, a predicate on
  the value already present deciding which assignments take effect.

## Main results

* `Lib.Dict.get?_set`, `Lib.Dict.get?_erase`, `Lib.Dict.get?_filterMapValues`,
  `Lib.Dict.get?_overlay`: lookup after each operation.
* `Lib.Dict.get?_eq_some_iff`, `Lib.Dict.get?_eq_none_iff`: lookup and the list of pairs.
* `Lib.Dict.flatten_values_groupBy`: grouping keeps every element.
-/

namespace Lib

universe u v w

/-- An insertion-ordered dictionary: pairs with distinct keys. -/
structure Dict (κ : Type u) (ν : Type v) where
  /-- The pairs, in insertion order. -/
  items : List (κ × ν)
  /-- No key is listed twice. -/
  nodup : (items.map Prod.fst).Nodup
deriving DecidableEq

namespace Dict

variable {κ : Type u} {ν : Type v} {μ : Type w}

instance : EmptyCollection (Dict κ ν) := ⟨⟨[], List.nodup_nil⟩⟩

instance : Inhabited (Dict κ ν) := ⟨∅⟩

/-- The keys, in insertion order. -/
def keys (d : Dict κ ν) : List κ := d.items.map Prod.fst

/-- The values, in insertion order of their keys. -/
def values (d : Dict κ ν) : List ν := d.items.map Prod.snd

/-- The dictionary of a function on a list of distinct keys. -/
def tabulate (l : List κ) (hl : l.Nodup) (f : κ → ν) : Dict κ ν where
  items := l.map fun k => (k, f k)
  nodup := by simpa [Function.comp_def] using hl

@[simp] theorem keys_tabulate (l : List κ) (hl : l.Nodup) (f : κ → ν) :
    (tabulate l hl f).keys = l := by
  simp [tabulate, keys, Function.comp_def]

/-- Whether the dictionary holds no pair. -/
def isEmpty (d : Dict κ ν) : Bool := d.items.isEmpty

theorem nodup_keys (d : Dict κ ν) : d.keys.Nodup := d.nodup

@[simp] theorem keys_empty : (∅ : Dict κ ν).keys = [] := rfl

@[simp] theorem items_empty : (∅ : Dict κ ν).items = [] := rfl

@[ext] theorem ext {d e : Dict κ ν} (h : d.items = e.items) : d = e := by
  cases d
  cases e
  cases h
  rfl

theorem mem_keys_of_mem_items {d : Dict κ ν} {k : κ} {v : ν} (h : (k, v) ∈ d.items) :
    k ∈ d.keys :=
  List.mem_map.2 ⟨(k, v), h, rfl⟩

variable [DecidableEq κ]

/-- The value under a key, if the key is present. -/
def get? (d : Dict κ ν) (k : κ) : Option ν := d.items.lookup k

/-- Whether a key is present. -/
def contains (d : Dict κ ν) (k : κ) : Bool := (d.get? k).isSome

/-- Assign a value to a key: in place when the key is present, at the end otherwise. -/
def set (d : Dict κ ν) (k : κ) (v : ν) : Dict κ ν where
  items := if k ∈ d.keys then d.items.map (fun p => if p.1 = k then (k, v) else p)
    else d.items ++ [(k, v)]
  nodup := by
    split_ifs with h
    · have hmap : (d.items.map fun p => if p.1 = k then (k, v) else p).map Prod.fst = d.keys := by
        rw [List.map_map, keys]
        refine List.map_congr_left fun p _ => ?_
        by_cases hp : p.1 = k <;> simp [hp]
      rw [hmap]
      exact d.nodup
    · rw [List.map_append]
      refine List.nodup_append.2 ⟨d.nodup, by simp, ?_⟩
      intro a ha b hb hab
      obtain rfl : b = k := by simpa using hb
      exact h (hab ▸ ha)

/-- Remove a key. -/
def erase (d : Dict κ ν) (k : κ) : Dict κ ν where
  items := d.items.filter fun p => p.1 ≠ k
  nodup := d.nodup.sublist (List.Sublist.map _ List.filter_sublist)

/-- Rewrite every value, dropping the pairs sent to `none`. -/
def filterMapValues (d : Dict κ ν) (f : κ → ν → Option μ) : Dict κ μ where
  items := d.items.filterMap fun p => (f p.1 p.2).map fun w => (p.1, w)
  nodup := by
    have hsub : List.Sublist
        ((d.items.filterMap fun p => (f p.1 p.2).map fun w => (p.1, w)).map Prod.fst) d.keys := by
      rw [keys]
      generalize d.items = l
      induction l with
      | nil => exact List.Sublist.refl _
      | cons p l ih =>
        cases hp : f p.1 p.2 with
        | none =>
          simp only [List.filterMap_cons, hp, Option.map_none, List.map_cons]
          exact ih.cons _
        | some w =>
          simp only [List.filterMap_cons, hp, Option.map_some, List.map_cons]
          exact ih.cons_cons _
    exact d.nodup.sublist hsub

/-- Assign the pairs of `e` to `d` in order; a pair `(k, v)` takes effect when `take` accepts the
value present under `k` and `v`. -/
def overlay (d e : Dict κ ν) (take : Option ν → ν → Bool) : Dict κ ν :=
  e.items.foldl (fun acc p => if take (acc.get? p.1) p.2 then acc.set p.1 p.2 else acc) d

/-! ### Lookup -/

@[simp] theorem get?_empty (k : κ) : (∅ : Dict κ ν).get? k = none := rfl

/-- Lookup in a list of pairs with distinct keys. -/
theorem lookup_eq_some_iff_mem {l : List (κ × ν)} (hl : (l.map Prod.fst).Nodup) (k : κ)
    (v : ν) : l.lookup k = some v ↔ (k, v) ∈ l := by
  induction l with
  | nil => simp
  | cons p l ih =>
    obtain ⟨j, w⟩ := p
    obtain ⟨hp, hl⟩ := List.nodup_cons.1 hl
    by_cases hk : k = j
    · subst hk
      have hnot : (k, v) ∉ l := fun h => hp (List.mem_map.2 ⟨_, h, rfl⟩)
      simp [hnot, eq_comm]
    · simp [List.lookup_cons, beq_eq_false_iff_ne.2 hk, ih hl, hk]

theorem get?_eq_some_iff {d : Dict κ ν} {k : κ} {v : ν} :
    d.get? k = some v ↔ (k, v) ∈ d.items :=
  lookup_eq_some_iff_mem d.nodup k v

theorem get?_eq_none_iff {d : Dict κ ν} {k : κ} : d.get? k = none ↔ k ∉ d.keys := by
  rw [Option.eq_none_iff_forall_ne_some]
  simp only [ne_eq, get?_eq_some_iff, keys, List.mem_map, Prod.exists, exists_and_right,
    exists_eq_right, not_exists]

theorem mem_keys_iff {d : Dict κ ν} {k : κ} : k ∈ d.keys ↔ ∃ v, d.get? k = some v := by
  rw [← Option.isSome_iff_exists, Option.isSome_iff_ne_none, ne_eq, get?_eq_none_iff, not_not]

theorem contains_eq_true_iff {d : Dict κ ν} {k : κ} : d.contains k = true ↔ k ∈ d.keys := by
  rw [contains, Option.isSome_iff_exists, mem_keys_iff]

theorem get?_tabulate {l : List κ} (hl : l.Nodup) (f : κ → ν) (k : κ) :
    (tabulate l hl f).get? k = if k ∈ l then some (f k) else none := by
  split_ifs with hk
  · exact get?_eq_some_iff.2 (List.mem_map.2 ⟨k, hk, rfl⟩)
  · exact get?_eq_none_iff.2 (by rwa [keys_tabulate])

theorem keys_set (d : Dict κ ν) (k : κ) (v : ν) :
    (d.set k v).keys = if k ∈ d.keys then d.keys else d.keys ++ [k] := by
  unfold set keys
  split_ifs with h
  · rw [List.map_map]
    refine List.map_congr_left fun p _ => ?_
    by_cases hp : p.1 = k <;> simp [hp]
  · simp

@[simp] theorem mem_keys_set {d : Dict κ ν} {k j : κ} {v : ν} :
    j ∈ (d.set k v).keys ↔ j = k ∨ j ∈ d.keys := by
  rw [keys_set]
  split_ifs with h
  · refine ⟨Or.inr, ?_⟩
    rintro (rfl | hj)
    · exact h
    · exact hj
  · simp [or_comm]

private theorem mem_items_set {d : Dict κ ν} {k j : κ} {v w : ν} :
    (j, w) ∈ (d.set k v).items ↔ (j = k ∧ w = v) ∨ (j ≠ k ∧ (j, w) ∈ d.items) := by
  unfold set
  split_ifs with h
  · rw [List.mem_map]
    constructor
    · rintro ⟨⟨j', w'⟩, hp, heq⟩
      by_cases hj : j' = k
      · simp only [hj, ↓reduceIte, Prod.mk.injEq] at heq
        exact Or.inl ⟨heq.1.symm, heq.2.symm⟩
      · simp only [hj, ↓reduceIte, Prod.mk.injEq] at heq
        obtain ⟨rfl, rfl⟩ := heq
        exact Or.inr ⟨hj, hp⟩
    · rintro (⟨rfl, rfl⟩ | ⟨hj, hp⟩)
      · obtain ⟨⟨j', w'⟩, hp, hk⟩ := List.mem_map.1 h
        exact ⟨(j', w'), hp, if_pos hk⟩
      · exact ⟨(j, w), hp, by simp [hj]⟩
  · rw [List.mem_append, List.mem_singleton, Prod.mk.injEq]
    have hne : (j, w) ∈ d.items → j ≠ k := fun hp hj => h (hj ▸ mem_keys_of_mem_items hp)
    tauto

@[simp] theorem get?_set (d : Dict κ ν) (k j : κ) (v : ν) :
    (d.set k v).get? j = if j = k then some v else d.get? j := by
  refine Option.ext fun w => ?_
  rw [get?_eq_some_iff, mem_items_set]
  by_cases hj : j = k
  · simp [hj, eq_comm]
  · simp [hj, get?_eq_some_iff]

theorem get?_set_self (d : Dict κ ν) (k : κ) (v : ν) : (d.set k v).get? k = some v := by simp

theorem get?_set_of_ne (d : Dict κ ν) {k j : κ} (v : ν) (h : j ≠ k) :
    (d.set k v).get? j = d.get? j := by simp [h]

@[simp] theorem get?_erase (d : Dict κ ν) (k j : κ) :
    (d.erase k).get? j = if j = k then none else d.get? j := by
  refine Option.ext fun w => ?_
  rw [get?_eq_some_iff, erase, List.mem_filter]
  by_cases hj : j = k
  · simp [hj]
  · simp [hj, get?_eq_some_iff]

@[simp] theorem get?_filterMapValues (d : Dict κ ν) (f : κ → ν → Option μ) (k : κ) :
    (d.filterMapValues f).get? k = (d.get? k).bind (f k) := by
  refine Option.ext fun w => ?_
  rw [get?_eq_some_iff, filterMapValues, List.mem_filterMap, Option.bind_eq_some_iff]
  constructor
  · rintro ⟨⟨j, v⟩, hp, hw⟩
    obtain ⟨w', hw', heq⟩ := Option.map_eq_some_iff.1 hw
    rw [Prod.mk.injEq] at heq
    obtain ⟨rfl, rfl⟩ := heq
    exact ⟨v, get?_eq_some_iff.2 hp, hw'⟩
  · rintro ⟨v, hv, hw⟩
    exact ⟨(k, v), get?_eq_some_iff.1 hv, by simp [hw]⟩

private theorem get?_foldl_overlay (take : Option ν → ν → Bool) (l : List (κ × ν))
    (hl : (l.map Prod.fst).Nodup) (d : Dict κ ν) (k : κ) :
    (l.foldl (fun acc p => if take (acc.get? p.1) p.2 then acc.set p.1 p.2 else acc) d).get? k =
      match l.lookup k with
      | none => d.get? k
      | some v => if take (d.get? k) v then some v else d.get? k := by
  induction l generalizing d with
  | nil => rfl
  | cons p l ih =>
    obtain ⟨j, w⟩ := p
    obtain ⟨hp, hl'⟩ := List.nodup_cons.1 hl
    rw [List.foldl_cons, ih hl']
    by_cases hk : k = j
    · subst hk
      have hnone : l.lookup k = none := by
        rw [Option.eq_none_iff_forall_ne_some]
        intro v hv
        exact hp (List.mem_map.2 ⟨(k, v), (lookup_eq_some_iff_mem hl' k v).1 hv, rfl⟩)
      simp only [hnone, List.lookup_cons, beq_self_eq_true]
      split_ifs <;> simp
    · have hd : (if take (d.get? j) w then d.set j w else d).get? k = d.get? k := by
        split_ifs <;> simp [hk]
      simp only [List.lookup_cons, beq_eq_false_iff_ne.2 hk, hd]

/-- Lookup after an overlay: each key of `e` is decided once, by the value `d` held there. -/
theorem get?_overlay (d e : Dict κ ν) (take : Option ν → ν → Bool) (k : κ) :
    (d.overlay e take).get? k =
      match e.get? k with
      | none => d.get? k
      | some v => if take (d.get? k) v then some v else d.get? k :=
  get?_foldl_overlay take e.items e.nodup d k

/-! ### Grouping -/

/-- Collect the elements of a list under the key each one has, in order of first sight. -/
def groupBy (key : ν → κ) (l : List ν) : Dict κ (List ν) :=
  l.foldl (fun d a => d.set (key a) ((d.get? (key a)).getD [] ++ [a])) ∅

/-- The values after an assignment: the new one stands for the one that the key had, if any. -/
theorem perm_values_set (d : Dict κ ν) (k : κ) (v : ν) :
    ∃ rest, d.values.Perm ((d.get? k).toList ++ rest) ∧ (d.set k v).values.Perm (v :: rest) := by
  by_cases hk : k ∈ d.keys
  · obtain ⟨w, hw⟩ := mem_keys_iff.1 hk
    obtain ⟨l₁, l₂, hl⟩ := List.append_of_mem (get?_eq_some_iff.1 hw)
    have hne : ∀ p ∈ l₁ ++ l₂, p.1 ≠ k := by
      have hnd := d.nodup
      rw [hl, List.map_append, List.map_cons] at hnd
      have hk' := (List.nodup_cons.1 (List.nodup_middle.1 hnd)).1
      intro p hp hpk
      rw [← List.map_append] at hk'
      exact hk' (List.mem_map.2 ⟨p, hp, hpk⟩)
    have hkeep (l : List (κ × ν)) (hl : ∀ p ∈ l, p.1 ≠ k) :
        l.map (fun p => if p.1 = k then (k, v) else p) = l := by
      rw [List.map_congr_left fun p hp => if_neg (hl p hp), List.map_id'']
      exact fun p => rfl
    have hset : (d.set k v).items = l₁ ++ (k, v) :: l₂ := by
      simp only [set, hk, if_true, hl, List.map_append, List.map_cons]
      rw [hkeep l₁ fun p hp => hne p (List.mem_append_left _ hp),
        hkeep l₂ fun p hp => hne p (List.mem_append_right _ hp)]
    refine ⟨(l₁ ++ l₂).map Prod.snd, ?_, ?_⟩
    · rw [hw, values, hl, List.map_append, List.map_append, List.map_cons]
      exact List.perm_middle
    · rw [values, hset, List.map_append, List.map_append, List.map_cons]
      exact List.perm_middle
  · refine ⟨d.values, ?_, ?_⟩
    · rw [get?_eq_none_iff.2 hk]
      exact .refl _
    · have hset : (d.set k v).items = d.items ++ [(k, v)] := if_neg hk
      rw [values, hset, List.map_append]
      exact List.perm_append_comm

private theorem flatten_values_set (d : Dict κ (List ν)) (k : κ) (a : ν) :
    (d.set k ((d.get? k).getD [] ++ [a])).values.flatten.Perm (a :: d.values.flatten) := by
  obtain ⟨rest, hvalues, hset⟩ := d.perm_values_set k ((d.get? k).getD [] ++ [a])
  have hold : ((d.get? k).toList ++ rest).flatten = (d.get? k).getD [] ++ rest.flatten := by
    cases d.get? k <;> rfl
  refine hset.flatten.trans (.trans ?_ (hvalues.flatten.symm.cons a))
  rw [hold, List.flatten_cons, List.append_assoc]
  exact List.perm_middle

/-- Grouping keeps every element, exactly once. -/
theorem flatten_values_groupBy (key : ν → κ) (l : List ν) :
    (groupBy key l).values.flatten.Perm l := by
  suffices h : ∀ (l : List ν) (d : Dict κ (List ν)),
      (l.foldl (fun d a => d.set (key a) ((d.get? (key a)).getD [] ++ [a])) d).values.flatten.Perm
        (d.values.flatten ++ l) by
    simpa [groupBy, values] using h l ∅
  intro l
  induction l with
  | nil =>
    intro d
    simp
  | cons a l ih =>
    intro d
    refine (ih _).trans ?_
    refine ((flatten_values_set d (key a) a).append_right l).trans ?_
    rw [List.cons_append]
    exact List.perm_middle.symm

end Dict

end Lib
