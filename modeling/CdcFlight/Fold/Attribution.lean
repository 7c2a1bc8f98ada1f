import CdcFlight.Fold.Represent
import CdcFlight.Fold.Frame
import CdcFlight.Source.Images

/-!
# Attribution finds the row

The entry that `_target_entry` chooses for an update or a delete stands for exactly the row the
source changed. With a full before-image this holds for any number of rows under the key; without
one it holds when the key is never worn twice, where the key has one entry left after the probe.

## Main definitions

* `CdcFlight.Layout.Answers`: a probe that answers for the rows the destination held.
* `CdcFlight.Layout.Found`: the outcome of a sound attribution.

## Main results

* `CdcFlight.Layout.targetEntry_full`: attribution by a full before-image.
* `CdcFlight.Layout.targetEntry_single`: attribution under a constraint that is not deferred.
-/

namespace CdcFlight

open Lib

namespace Layout

variable {C V : Type} [DecidableEq C] [DecidableEq V] (layout : Layout C)

/-- A probe that answers for the rows `D` the destination held before the group. -/
structure Answers (probe : Probe C V) (D : Multiset (Row C V)) : Prop where
  startExists : ∀ (item : TableWork C V) (r : Row C V), item.snapshot = false →
    item.keyColumns = layout.keyColumns →
    (probe.startExists item (layout.token r) = true ↔ layout.rowsAt D (layout.token r) ≠ 0)
  startMatches : ∀ (item : TableWork C V) (r : Row C V) (image : Image C V),
    item.snapshot = false → item.keyColumns = layout.keyColumns →
    probe.startMatches item (layout.token r) image = some true →
    ∃ s ∈ layout.rowsAt D (layout.token r), ∀ c x, image.get? c = some x → c ∈ layout.columns →
      s c = x

/-- Attribution found the entry that stands for the row. -/
structure Found (D S : Multiset (Row C V)) (item : TableWork C V) (old : Row C V)
    (index : Option ℕ) (item' : TableWork C V) : Prop where
  entry : ∃ i e, index = some i ∧ (item'.entriesAt (layout.token old))[i]? = some e ∧
    layout.denote D (layout.token old) e = {old}
  seen : (item'.live.get? (layout.token old)).isSome
  represents : layout.Represents D item' S
  config : item'.config = item.config
  multi : item'.multi = item.multi

variable {layout} [ColumnValue V] {D S : Multiset (Row C V)} {item item' : TableWork C V}
  {k : Token V} {probe : Probe C V} {before : BeforeImage C V} {what : Attributed}
  {index : Option ℕ}

omit [DecidableEq C] [ColumnValue V] in
theorem get?_of_isSome (h : (item.live.get? k).isSome) :
    item.live.get? k = some (item.entriesAt k) := by
  obtain ⟨es, hes⟩ := Option.isSome_iff_exists.1 h
  rw [entriesAt_of_get? hes, hes]

/-! ### One key -/

/-- The resolution of `START` at the beginning of `_target_entry`. -/
def resolveMany (probe : Probe C V) (k : Token V) (item : TableWork C V) : TableWork C V :=
  if 1 < (item.entriesAt k).length then item.resolveStart probe k else item

theorem run_targetEntry (item : TableWork C V) :
    (targetEntry probe k before what).run item =
      match (resolveMany probe k item).entriesAt k with
      | [] => .ok none (resolveMany probe k item)
      | [_] => .ok (some 0) (resolveMany probe k item)
      | _ => (attributeAmong probe k before what).run (resolveMany probe k item) := by
  have hrun : (targetEntry probe k before what).run item =
      (match (resolveMany probe k item).entriesAt k with
      | [] => pure none
      | [_] => pure (some 0)
      | _ => attributeAmong probe k before what : Fold C V (Option ℕ)).run
        (resolveMany probe k item) := by
    unfold targetEntry resolveMany
    simp only [EStateM.run_bind, EStateM.run_get]
    split_ifs with h <;> rfl
  rw [hrun]
  split <;> rfl

omit [ColumnValue V] in
theorem choose_mem {entries : List (Entry C V)} {matched : List ℕ} {i : ℕ}
    (h : choose entries matched = some i) : i ∈ matched := by
  unfold choose at h
  split at h
  · cases h
  · obtain rfl := Option.some.inj h
    simp
  · rename_i j js _
    obtain rfl := Option.some.inj h
    cases hf : (j :: js).find? fun i => decide (entries[i]? = some .start) with
    | none => simp
    | some i => simpa using List.mem_of_find?_eq_some hf

/-- What attribution among several entries can answer. -/
theorem attributeAmong_ok
    (h : (attributeAmong probe k before what).run item = .ok index item') :
    item' = item ∧
      ((distinguishing item before.image before.descriptors before.typed).items = [] ∨
        ∃ i e, index = some i ∧ (item.entriesAt k)[i]? = some e ∧
          matchesEntry probe item k
            (distinguishing item before.image before.descriptors before.typed) e) := by
  unfold attributeAmong at h
  simp only [EStateM.run_bind, EStateM.run_get] at h
  split_ifs at h with h₁ h₂ h₃
  · cases h
  · cases h
    exact ⟨rfl, Or.inl h₂⟩
  · cases h
  · split at h
    · rename_i i hchoose
      cases h
      refine ⟨rfl, Or.inr ⟨i, ?_⟩⟩
      have hmem := (List.mem_filter.1 (choose_mem hchoose)).2
      rw [Option.any_eq_true_iff_get] at hmem
      obtain ⟨hsome, hmatch⟩ := hmem
      exact ⟨_, rfl, (Option.some_get hsome).symm, hmatch⟩
    · cases h

/-! ### The chosen entry -/

omit [ColumnValue V] in
/-- The probe's answer at a configured state. -/
theorem Answers.exists_iff (hA : layout.Answers probe D) (hc : layout.Configured item.config)
    (hkeys : item.keyColumns = layout.keyColumns) (hk : ∃ r : Row C V, k = layout.token r) :
    probe.startExists item k = true ↔ layout.rowsAt D k ≠ 0 := by
  obtain ⟨r, rfl⟩ := hk
  exact hA.startExists item r hc.snapshot hkeys

omit [ColumnValue V] in
theorem Represents.isToken_of_isSome (h : layout.Represents D item S)
    (hs : (item.live.get? k).isSome) : ∃ r : Row C V, k = layout.token r :=
  h.isToken k _ (get?_of_isSome hs)

omit [ColumnValue V] in
/-- After the probe: the rows are still represented, and a `START` stands for a row. -/
theorem resolveMany_spec (hA : layout.Answers probe D) (h : layout.Represents D item S)
    (hc : layout.Configured item.config) (hkeys : item.keyColumns = layout.keyColumns)
    (hs : (item.live.get? k).isSome) :
    layout.Represents D (resolveMany probe k item) S ∧
      ((resolveMany probe k item).live.get? k).isSome ∧
      (resolveMany probe k item).config = item.config ∧
      (resolveMany probe k item).multi = item.multi ∧
      (1 < ((resolveMany probe k item).entriesAt k).length →
        ∀ es, (resolveMany probe k item).entriesAt k = .start :: es → layout.rowsAt D k ≠ 0) := by
  have hprobe := hA.exists_iff hc hkeys (h.isToken_of_isSome hs)
  unfold resolveMany
  split_ifs with hlen
  · exact ⟨h.resolveStart hprobe, Represents.isSome_resolveStart hs, config_resolveStart _ _ _,
      multi_resolveStart _ _ _, fun _ es hes => h.rowsAt_ne_of_start hprobe hes⟩
  · exact ⟨h, hs, rfl, rfl, fun h' => absurd h' hlen⟩

/-- A key worn by a row has an entry, and a lone entry stands for the row. -/
theorem targetEntry_found {old : Row C V} (hA : layout.Answers probe D)
    (hD : layout.KeysDistinct D) (h : layout.Represents D item S)
    (hc : layout.Configured item.config) (hkeys : item.keyColumns = layout.keyColumns)
    (hs : (item.live.get? (layout.token old)).isSome) (hold : old ∈ S)
    (hmany : ∀ item₁ : TableWork C V, layout.Represents D item₁ S → item₁.config = item.config →
      (item₁.live.get? (layout.token old)).isSome →
      1 < (item₁.entriesAt (layout.token old)).length →
      (∀ es, item₁.entriesAt (layout.token old) = .start :: es →
        layout.rowsAt D (layout.token old) ≠ 0) →
      (attributeAmong probe (layout.token old) before what).run item₁ = .ok index item' →
      ∃ i e, index = some i ∧ item' = item₁ ∧
        (item₁.entriesAt (layout.token old))[i]? = some e ∧
        layout.denote D (layout.token old) e = {old})
    (hrun : (targetEntry probe (layout.token old) before what).run item = .ok index item') :
    layout.Found D S item old index item' := by
  obtain ⟨hr, hs₁, hconf, hmulti, hstart⟩ := resolveMany_spec hA h hc hkeys hs
  have hrows := hr.seen _ _ (get?_of_isSome hs₁)
  have hmem : old ∈ layout.rowsAt S (layout.token old) := mem_rowsAt.2 ⟨hold, rfl⟩
  rw [run_targetEntry] at hrun
  split at hrun
  · rename_i hes
    rw [hrows, hes, denoteAll_nil] at hmem
    exact absurd hmem (Multiset.notMem_zero _)
  · rename_i e hes
    cases hrun
    refine ⟨⟨0, e, rfl, by simp [hes], ?_⟩, hs₁, hr, hconf, hmulti⟩
    rw [hrows, hes, denoteAll_cons, denoteAll_nil, add_zero] at hmem
    exact eq_singleton_of_mem (card_denote_le hD _ e) hmem
  · rename_i hnil hone
    have hlen : 1 < ((resolveMany probe (layout.token old) item).entriesAt
        (layout.token old)).length := by
      cases hes : (resolveMany probe (layout.token old) item).entriesAt (layout.token old) with
      | nil => exact absurd hes hnil
      | cons e es =>
        cases es with
        | nil => exact absurd hes (hone e)
        | cons e' es => simp
    obtain ⟨i, e, hi, rfl, he, hden⟩ := hmany _ hr hconf hs₁ hlen (hstart hlen) hrun
    exact ⟨⟨i, e, hi, he, hden⟩, hs₁, hr, hconf, hmulti⟩

/-! ### Full before-images -/

omit [DecidableEq V] [ColumnValue V] in
/-- Rows of the table that agree on the key and on every other column are equal. -/
theorem eq_of_agree {r old : Row C V} (hr : layout.Fits r) (hold : layout.Fits old)
    (hkey : layout.token r = layout.token old)
    (h : ∀ c ∈ layout.columns, c ∉ layout.keyColumns → r c = old c) : r = old := by
  funext c
  by_cases hc : c ∈ layout.columns
  · by_cases hck : c ∈ layout.keyColumns
    · exact List.map_inj_left.1 ((layout.token_eq_iff).1 hkey) c hck
    · exact h c hc hck
  · rw [hr c hc, hold c hc]

omit [ColumnValue V] in
theorem denote_le_rowsAt (h : layout.Represents D item S) {e : Entry C V} {i : ℕ}
    (hs : (item.live.get? k).isSome) (hi : (item.entriesAt k)[i]? = some e) :
    layout.denote D k e ≤ layout.rowsAt S k := by
  rw [h.seen _ _ (get?_of_isSome hs), ← denoteAll_eraseIdx layout D k hi]
  exact Multiset.le_add_right _ _

omit [ColumnValue V] in
/-- A patch that binds every column of an image to the image's values. -/
theorem apply_of_matchesImage {p : RowPatch C V} {image : Image C V}
    (h : p.matchesImage image = true) {c : C} {x : Option V} (hc : image.get? c = some x)
    (base : Row C V) : p.apply base c = x := by
  have hmem := List.all_eq_true.1 h (c, x) (Dict.get?_eq_some_iff.1 hc)
  rw [decide_eq_true_eq] at hmem
  unfold RowPatch.field at hmem
  rw [RowPatch.apply, RowPatch.get?_bindableValues]
  cases hf : p.fields.get? c with
  | none => simp [hf, FieldState.bound?] at hmem
  | some f =>
    simp only [hf, Option.getD_some] at hmem
    simp [hmem]

omit [ColumnValue V] in
/-- An entry that matches a full before-image stands for the row the image shows. -/
theorem denote_of_matches {old : Row C V} (hA : layout.Answers probe D)
    (hD : layout.KeysDistinct D) (hDfits : ∀ r ∈ D, layout.Fits r)
    (h : layout.Represents D item S) (hSfits : ∀ r ∈ S, layout.Fits r)
    (hc : layout.Configured item.config) (hkeys : item.keyColumns = layout.keyColumns)
    (hs : (item.live.get? (layout.token old)).isSome) (hold : old ∈ S) {image : Image C V}
    (himage : ∀ c ∈ layout.columns, c ∉ layout.keyColumns → image.get? c = some (old c))
    {e : Entry C V} {i : ℕ} (hi : (item.entriesAt (layout.token old))[i]? = some e)
    (hmatch : matchesEntry probe item (layout.token old) image e = true) :
    layout.denote D (layout.token old) e = {old} := by
  have hmem := List.mem_of_getElem? hi
  have hwf := h.wellFormed _ _ (get?_of_isSome hs)
  have hle := denote_le_rowsAt h hs hi
  cases e with
  | start =>
    have hans : probe.startMatches item (layout.token old) image = some true := by
      cases hm : probe.startMatches item (layout.token old) image with
      | none => simp [matchesEntry, hm] at hmatch
      | some b => simpa [matchesEntry, hm] using hmatch
    obtain ⟨r, hr, hagree⟩ := hA.startMatches item old image hc.snapshot hkeys hans
    obtain ⟨hrD, hrk⟩ := mem_rowsAt.1 hr
    have heq : r = old := eq_of_agree (hDfits r hrD) (hSfits old hold) hrk
      fun c hc hck => hagree c _ (himage c hc hck) hc
    exact eq_singleton_of_mem (hD.card_rowsAt_le _) (heq ▸ hr)
  | patch p =>
    have hrow (base : Row C V) (hb : p.apply base ∈ layout.rowsAt S (layout.token old)) :
        p.apply base = old := by
      obtain ⟨hbS, hbk⟩ := mem_rowsAt.1 hb
      exact eq_of_agree (hSfits _ hbS) (hSfits old hold) hbk
        fun c hc hck => apply_of_matchesImage hmatch (himage c hc hck) base
    simp only [denote] at hle ⊢
    split_ifs at hle ⊢ with hp
    · rw [hrow _ (Multiset.mem_of_le hle (Multiset.mem_singleton_self _))]
    · obtain ⟨-, hne⟩ := hwf.sparse p hmem (by simpa using hp)
      obtain ⟨r, hr⟩ := Multiset.exists_mem_of_ne_zero hne
      have hrD := eq_singleton_of_mem (hD.card_rowsAt_le _) hr
      rw [hrD, Multiset.map_singleton] at hle ⊢
      rw [hrow _ (Multiset.mem_of_le hle (Multiset.mem_singleton_self _))]
  | move s t p => exact absurd hmem (hwf.no_move s t p)

/-- **Attribution by a full before-image.** Whatever number of rows wears the key, the entry that
is chosen stands for the row the before-image shows. -/
theorem targetEntry_full (before : BeforeImage C V) {old : Row C V} (hA : layout.Answers probe D)
    (hD : layout.KeysDistinct D) (hDfits : ∀ r ∈ D, layout.Fits r)
    (h : layout.Represents D item S) (hSfits : ∀ r ∈ S, layout.Fits r)
    (hc : layout.Configured item.config) (hkeys : item.keyColumns = layout.keyColumns)
    (hs : (item.live.get? (layout.token old)).isSome) (hold : old ∈ S)
    (hnonkey : ∃ c ∈ layout.columns, c ∉ layout.keyColumns)
    (hw : layout.WellTyped before.image before.descriptors before.typed)
    (hfull : layout.ShowsAll before.image before.typed old)
    (hrun : (targetEntry probe (layout.token old) before what).run item = .ok index item') :
    layout.Found D S item old index item' := by
  refine targetEntry_found hA hD h hc hkeys hs hold ?_ hrun
  intro item₁ hr hconf hs₁ _ _ hrun₁
  have hc₁ : layout.Configured item₁.config := hconf ▸ hc
  have hkeys₁ : item₁.keyColumns = layout.keyColumns :=
    (congrArg FoldConfig.keyColumns hconf).trans hkeys
  have himage := get?_distinguishing hw hfull hkeys₁ hc₁.descriptors
  obtain ⟨rfl, hnil | ⟨i, e, hi, he, hmatch⟩⟩ := attributeAmong_ok hrun₁
  · obtain ⟨c, hcol, hck⟩ := hnonkey
    have hget := himage c
    rw [if_pos ⟨hcol, hck⟩, Dict.get?_eq_some_iff, hnil] at hget
    cases hget
  · refine ⟨i, e, hi, rfl, he, ?_⟩
    exact denote_of_matches hA hD hDfits hr hSfits hc₁ hkeys₁ hs₁ hold
      (fun c hcol hck => by rw [himage c, if_pos ⟨hcol, hck⟩]) he hmatch

/-! ### Keys that are never worn twice -/

omit [ColumnValue V] in
theorem length_le_card_denoteAll {es : List (Entry C V)}
    (h : ∀ e ∈ es, layout.denote D k e ≠ 0) : es.length ≤ (layout.denoteAll D k es).card := by
  induction es with
  | nil => simp
  | cons e es ih =>
    have he : 0 < (layout.denote D k e).card :=
      Multiset.card_pos.2 (h e List.mem_cons_self)
    have hes := ih fun e' he' => h e' (List.mem_cons_of_mem _ he')
    rw [denoteAll_cons, Multiset.card_add, List.length_cons]
    omega

omit [ColumnValue V] in
/-- Where `START` stands for a row, every entry does. -/
theorem denote_ne_zero {truncated : Bool} {es : List (Entry C V)}
    (hwf : layout.WellFormed D truncated k es)
    (hstart : ∀ es', es = .start :: es' → layout.rowsAt D k ≠ 0) {e : Entry C V} (he : e ∈ es) :
    layout.denote D k e ≠ 0 := by
  cases e with
  | start =>
    cases es with
    | nil => cases he
    | cons e' es' =>
      rcases List.mem_cons.1 he with rfl | he
      · exact hstart es' rfl
      · exact absurd he hwf.start_head
  | patch p =>
    simp only [denote]
    split_ifs with hp
    · simp
    · obtain ⟨-, hne⟩ := hwf.sparse p he (by simpa using hp)
      simpa using hne
  | move s t p => exact absurd he (hwf.no_move s t p)

omit [ColumnValue V] in
/-- A key that is worn once has one entry after the probe. -/
theorem length_entriesAt_le (hS : layout.KeysDistinct S) (h : layout.Represents D item S)
    (hs : (item.live.get? k).isSome)
    (hstart : ∀ es, item.entriesAt k = .start :: es → layout.rowsAt D k ≠ 0) :
    (item.entriesAt k).length ≤ 1 := by
  have hget := get?_of_isSome hs
  calc (item.entriesAt k).length
      ≤ (layout.denoteAll D k (item.entriesAt k)).card :=
        length_le_card_denoteAll fun e he => denote_ne_zero (h.wellFormed _ _ hget) hstart he
    _ = (layout.rowsAt S k).card := by rw [h.seen _ _ hget]
    _ ≤ 1 := hS.card_rowsAt_le k

/-- **Attribution under a constraint that is not deferred.** The key has one entry, which stands
for the row, whatever the before-image holds; attribution does not raise. -/
theorem targetEntry_single (before : BeforeImage C V) (what : Attributed) {old : Row C V}
    (hA : layout.Answers probe D)
    (hD : layout.KeysDistinct D) (h : layout.Represents D item S) (hS : layout.KeysDistinct S)
    (hc : layout.Configured item.config) (hkeys : item.keyColumns = layout.keyColumns)
    (hs : (item.live.get? (layout.token old)).isSome) (hold : old ∈ S) :
    ∃ index item', (targetEntry probe (layout.token old) before what).run item =
        .ok index item' ∧ layout.Found D S item old index item' := by
  obtain ⟨hr, hs₁, hconf, hmulti, hstart⟩ :=
    resolveMany_spec hA h hc hkeys hs
  have hone : ((resolveMany probe (layout.token old) item).entriesAt
      (layout.token old)).length ≤ 1 := by
    by_contra hlen
    exact hlen (length_entriesAt_le hS hr hs₁ (hstart (by omega)))
  obtain ⟨index, item', hrun⟩ : ∃ index item',
      (targetEntry probe (layout.token old) before what).run item = .ok index item' := by
    rw [run_targetEntry]
    split
    · exact ⟨_, _, rfl⟩
    · exact ⟨_, _, rfl⟩
    · rename_i hnil hsingle
      cases hes : (resolveMany probe (layout.token old) item).entriesAt (layout.token old) with
      | nil => exact absurd hes hnil
      | cons e es =>
        cases es with
        | nil => exact absurd hes (hsingle e)
        | cons e' es =>
          rw [hes] at hone
          simp at hone
  refine ⟨index, item', hrun, targetEntry_found hA hD h hc hkeys hs hold ?_ hrun⟩
  intro item₁ hr₁ _ hs₁' hlen hstart₁ _
  exact absurd (length_entriesAt_le hS hr₁ hs₁' hstart₁) (by omega)

end Layout

end CdcFlight
