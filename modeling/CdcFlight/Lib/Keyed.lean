import CdcFlight.Lib.Dict

/-!
# Collections of keyed elements

Elements of a collection wear a key. A multiset is determined by its parts under each key, and a
batch of keyed assignments with distinct keys may be applied in one pass or split into any
sequence of passes.

## Main definitions

* `Lib.under`: the elements of a multiset that wear a key.
* `Lib.assign`: apply to an element the assignment listed for its key.
* `Lib.pass`: assign to every element of a collection, counting the elements reached.
* `Lib.TextsApart`: no element wears a key that differs from a listed one in the text alone.

## Main results

* `Lib.ext_under`: a multiset is determined by its parts.
* `Lib.flatMap_fibers`: a list is the concatenation of its parts, up to order.
* `Lib.foldl_pass`: a batch of assignments split into passes.
* `Lib.foldl_pass_inForm`: passes that compare keys in another form.
-/

namespace Lib

universe u v w

variable {α : Type u} {κ : Type v} {β : Type w} [DecidableEq κ] (key : α → κ)

/-- The elements of a multiset that wear a key. -/
def under (s : Multiset α) (k : κ) : Multiset α := s.filter fun a => key a = k

@[simp] theorem mem_under {s : Multiset α} {k : κ} {a : α} :
    a ∈ under key s k ↔ a ∈ s ∧ key a = k := Multiset.mem_filter

@[simp] theorem under_zero (k : κ) : under key 0 k = 0 := Multiset.filter_zero _

@[simp] theorem under_add (s t : Multiset α) (k : κ) :
    under key (s + t) k = under key s k + under key t k := Multiset.filter_add _ s t

theorem under_cons_self (a : α) (s : Multiset α) :
    under key (a ::ₘ s) (key a) = a ::ₘ under key s (key a) :=
  Multiset.filter_cons_of_pos s rfl

theorem under_cons_of_ne {a : α} {k : κ} (s : Multiset α) (h : key a ≠ k) :
    under key (a ::ₘ s) k = under key s k :=
  Multiset.filter_cons_of_neg s h

/-- A multiset is determined by its parts under each key. -/
theorem ext_under {s t : Multiset α} (h : ∀ k, under key s k = under key t k) : s = t := by
  classical
  refine Multiset.ext.2 fun a => ?_
  have hcount (m : Multiset α) : m.count a = (under key m (key a)).count a :=
    (Multiset.count_filter_of_pos (p := fun b => key b = key a) rfl).symm
  rw [hcount s, hcount t, h]

/-- A list is the concatenation of its parts under the keys that occur, up to order. -/
theorem flatMap_fibers (g : α → List β) {ks : List κ} (hks : ks.Nodup) (l : List α)
    (hl : ∀ a ∈ l, key a ∈ ks) :
    (ks.flatMap fun k => (l.filter fun a => key a = k).flatMap g).Perm (l.flatMap g) := by
  induction ks generalizing l with
  | nil =>
    cases l with
    | nil => exact .nil
    | cons a l => cases hl a List.mem_cons_self
  | cons k ks ih =>
    obtain ⟨hk, hks⟩ := List.nodup_cons.1 hks
    have hrest := ih hks (l.filter fun a => ¬ key a = k) fun a ha => by
      obtain ⟨ha, hne⟩ := List.mem_filter.1 ha
      exact (List.mem_cons.1 (hl a ha)).resolve_left (by simpa using hne)
    -- removing the elements under `k` does not touch the other parts
    have hparts : (ks.flatMap fun q => ((l.filter fun a => ¬ key a = k).filter fun a =>
        key a = q).flatMap g) = ks.flatMap fun q => (l.filter fun a => key a = q).flatMap g := by
      refine List.flatMap_congr fun q hq => ?_
      rw [List.filter_filter]
      congr 2
      funext a
      by_cases haq : key a = q
      · have hne : q ≠ k := fun hqk => hk (hqk ▸ hq)
        simp [haq, hne]
      · simp [haq]
    rw [hparts] at hrest
    have hsplit := (List.filter_append_perm (fun a => decide (key a = k)) l).flatMap_right g
    rw [List.flatMap_append] at hsplit
    rw [List.flatMap_cons]
    refine (List.Perm.append_left _ hrest.symm).symm.trans (List.Perm.trans ?_ hsplit)
    simp

/-! ### Keyed assignments -/

variable (f : α → β → α)

/-- Apply to an element the first assignment listed for its key. -/
def assign (l : List (κ × β)) (a : α) : α :=
  match l.lookup (key a) with
  | some b => f a b
  | none => a

/-- An assignment listed for a key leaves the key of an element that wears it. -/
def KeepsKey (l : List (κ × β)) : Prop := ∀ p ∈ l, ∀ a, key a = p.1 → key (f a p.2) = p.1

private theorem lookup_mem {l : List (κ × β)} {k : κ} {b : β} (h : l.lookup k = some b) :
    (k, b) ∈ l := by
  obtain ⟨l₁, l₂, rfl, -⟩ := List.lookup_eq_some_iff.1 h
  simp

theorem assign_of_mem {l : List (κ × β)} (hd : (l.map Prod.fst).Nodup) {a : α} {b : β}
    (h : (key a, b) ∈ l) : assign key f l a = f a b := by
  unfold assign
  rw [(Dict.lookup_eq_some_iff_mem hd _ _).2 h]

theorem assign_of_notMem {l : List (κ × β)} {a : α} (h : ∀ b, (key a, b) ∉ l) :
    assign key f l a = a := by
  unfold assign
  cases hl : l.lookup (key a) with
  | none => rfl
  | some b => exact absurd (lookup_mem hl) (h b)

theorem key_assign {l : List (κ × β)} (hl : KeepsKey key f l) (a : α) :
    key (assign key f l a) = key a := by
  unfold assign
  cases h : l.lookup (key a) with
  | none => rfl
  | some b => exact hl _ (lookup_mem h) a rfl

private theorem assign_append {l m : List (κ × β)} (hl : KeepsKey key f l)
    (hd : ((l ++ m).map Prod.fst).Nodup) (a : α) :
    assign key f (l ++ m) a = assign key f m (assign key f l a) := by
  have hkey := key_assign key f hl a
  unfold assign at hkey ⊢
  rw [List.lookup_append]
  cases h : l.lookup (key a) with
  | none => simp
  | some b =>
    simp only [h] at hkey ⊢
    have hnone : m.lookup (key a) = none := by
      rw [Option.eq_none_iff_forall_ne_some]
      intro c hc
      rw [List.map_append] at hd
      exact (List.nodup_append.1 hd).2.2 _ (List.mem_map_of_mem (lookup_mem h)) _
        (List.mem_map_of_mem (lookup_mem hc)) rfl
    rw [hkey, hnone]
    rfl

/-- The assignments that a list holds depend on its order only through repeated keys. -/
theorem assign_perm {l m : List (κ × β)} (h : l.Perm m) (hd : (l.map Prod.fst).Nodup) :
    assign key f l = assign key f m := by
  have hm : (m.map Prod.fst).Nodup := (h.map Prod.fst).nodup_iff.1 hd
  have hlookup (k : κ) : l.lookup k = m.lookup k := by
    refine Option.ext fun b => ?_
    rw [Dict.lookup_eq_some_iff_mem hd, Dict.lookup_eq_some_iff_mem hm, h.mem_iff]
  funext a
  unfold assign
  rw [hlookup]

private theorem countP_or_of_disjoint {p q : α → Prop} [DecidablePred p] [DecidablePred q]
    (h : ∀ a, p a → ¬ q a) (l : List α) :
    (l.countP fun a => p a ∨ q a) = l.countP (fun a => p a) + l.countP fun a => q a := by
  induction l with
  | nil => rfl
  | cons a l ih =>
    simp only [List.countP_cons, ih]
    have := h a
    by_cases hp : p a <;> by_cases hq : q a <;> simp_all <;> omega

omit [DecidableEq κ] in
/-- Distinct keys that elements with distinct keys wear reach one element each. -/
theorem countP_mem_eq_length {l : List α} {ks : List κ} {p : α → Bool}
    (hp : ∀ a, p a = true ↔ key a ∈ ks) (hl : (l.map key).Nodup) (hks : ks.Nodup)
    (hsub : ∀ k ∈ ks, k ∈ l.map key) : l.countP p = ks.length := by
  have hperm : ((l.filter p).map key).Perm ks := by
    refine (List.perm_ext_iff_of_nodup (hl.sublist (List.filter_sublist.map key)) hks).2
      fun k => ⟨fun hk => ?_, fun hk => ?_⟩
    · obtain ⟨a, ha, rfl⟩ := List.mem_map.1 hk
      exact (hp a).1 (List.mem_filter.1 ha).2
    · obtain ⟨a, ha, rfl⟩ := List.mem_map.1 (hsub k hk)
      exact List.mem_map_of_mem (List.mem_filter.2 ⟨ha, (hp a).2 hk⟩)
  rw [← hperm.length_eq, List.length_map, List.countP_eq_length_filter]

/-- One pass of keyed assignments over a collection, counting the elements it reaches. -/
def pass (c : List α × ℕ) (l : List (κ × β)) : List α × ℕ :=
  (c.1.map (assign key f l), c.2 + c.1.countP fun a => key a ∈ l.map Prod.fst)

/-- **Splitting a batch.** A batch of assignments with distinct keys may be applied in any sequence
of passes; together they reach every element whose key is listed, once. -/
theorem foldl_pass (ls : List (List (κ × β))) (hl : KeepsKey key f ls.flatten)
    (hd : (ls.flatten.map Prod.fst).Nodup) (c : List α × ℕ) :
    ls.foldl (pass key f) c =
      (c.1.map (assign key f ls.flatten),
        c.2 + c.1.countP fun a => key a ∈ ls.flatten.map Prod.fst) := by
  induction ls generalizing c with
  | nil =>
    have hid : assign key f ([] : List (κ × β)) = id := rfl
    simp [hid]
  | cons l ls ih =>
    rw [List.flatten_cons] at hl hd ⊢
    have hl₁ : KeepsKey key f l := fun p hp => hl p (List.mem_append_left _ hp)
    have hd' := hd
    rw [List.map_append] at hd'
    obtain ⟨-, hd₂, hdisj⟩ := List.nodup_append.1 hd'
    rw [List.foldl_cons, ih (fun p hp => hl p (List.mem_append_right _ hp)) hd₂]
    refine Prod.ext ?_ ?_
    · rw [pass, List.map_map]
      exact List.map_congr_left fun a _ => (assign_append key f hl₁ hd a).symm
    · simp only [pass, List.countP_map, Function.comp_def, key_assign key f hl₁, List.map_append,
        List.mem_append, Nat.add_assoc]
      rw [countP_or_of_disjoint]
      intro a h₁ h₂
      exact hdisj _ h₁ _ h₂ rfl

/-! ### Keys compared in another form -/

section Forms

variable {κ' : Type*} [DecidableEq κ'] (g : κ → κ')

/-- Keyed assignments, addressed in another form. -/
def inForm (l : List (κ × β)) : List (κ' × β) := l.map (Prod.map g id)

/-- No element wears a key that differs from a listed one in the text alone. -/
def TextsApart (c : List α) (l : List (κ × β)) : Prop :=
  ∀ a ∈ c, ∀ p ∈ l, g (key a) = g p.1 → key a = p.1

private theorem lookup_inForm {l : List (κ × β)} {k : κ} (h : ∀ p ∈ l, g k = g p.1 → k = p.1) :
    (inForm g l).lookup (g k) = l.lookup k := by
  induction l with
  | nil => rfl
  | cons p l ih =>
    have ih := ih fun q hq => h q (List.mem_cons_of_mem p hq)
    rw [inForm, List.map_cons, ← inForm, List.lookup_cons, List.lookup_cons, ih]
    by_cases hk : k = p.1
    · subst hk
      simp
    · have hg : g k ≠ g p.1 := fun hg => hk (h p List.mem_cons_self hg)
      simp [Prod.map, beq_eq_false_iff_ne.2 hk, beq_eq_false_iff_ne.2 hg]

private theorem pass_inForm {l : List (κ × β)} {c : List α × ℕ} (h : TextsApart key g c.1 l) :
    pass (g ∘ key) f c (inForm g l) = pass key f c l := by
  refine Prod.ext ?_ ?_
  · refine List.map_congr_left fun a ha => ?_
    rw [assign, assign, Function.comp_apply, lookup_inForm g (h a ha)]
  · refine congrArg (c.2 + ·) (List.countP_congr fun a ha => ?_)
    simp only [inForm, List.map_map, List.mem_map, Function.comp_apply, Prod.map_fst,
      decide_eq_true_eq]
    exact exists_congr fun p => and_congr_right fun hp =>
      ⟨fun hg => (h a ha p hp hg.symm).symm, fun hk => congrArg g hk⟩

/-- **Comparing keys in another form.** Where no element wears a key of a listed form in another
text, the passes are those by the texts. -/
theorem foldl_pass_inForm (ls : List (List (κ × β))) (hl : KeepsKey key f ls.flatten)
    {c : List α × ℕ} (h : TextsApart key g c.1 ls.flatten) :
    (ls.map (inForm g)).foldl (pass (g ∘ key) f) c = ls.foldl (pass key f) c := by
  induction ls generalizing c with
  | nil => rfl
  | cons l ls ih =>
    rw [List.flatten_cons] at hl h
    rw [List.map_cons, List.foldl_cons, List.foldl_cons,
      pass_inForm key f g fun a ha p hp => h a ha p (List.mem_append_left _ hp)]
    refine ih (fun p hp => hl p (List.mem_append_right _ hp)) fun a' ha' p hp hg => ?_
    -- a pass leaves every key as it was
    obtain ⟨a, ha, rfl⟩ := List.mem_map.1 ha'
    rw [key_assign key f fun q hq => hl q (List.mem_append_left _ hq)] at hg ⊢
    exact h a ha p (List.mem_append_right _ hp) hg

end Forms

end Lib
