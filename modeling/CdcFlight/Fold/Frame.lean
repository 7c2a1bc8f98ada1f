import CdcFlight.Source.History

/-!
# What the fold of a keyed table leaves alone

The parts of the fold state that name columns and descriptors, the identity and the mode of the
table, against the catalog of the source table. Computing a fold key and declaring columns touches
only the descriptor maps, and every descriptor in them is the catalog's.

## Main definitions

* `CdcFlight.TableWork.config`: the part of the state that operations on rows do not touch.
* `CdcFlight.Layout.Redescribes`: two states that differ in their descriptor maps only.

## Main results

* `CdcFlight.Layout.keyToken_ok`, `CdcFlight.Layout.keyToken_total`: the fold key of a row.
* `CdcFlight.Layout.declareFields_ok`, `CdcFlight.Layout.declareFields_total`.
-/

namespace CdcFlight

open Lib

variable {C V : Type}

/-- The part of the fold state that operations on rows do not touch. -/
structure FoldConfig (C V : Type) where
  snapshot : Bool
  incremental : Bool
  keyless : Bool
  deleteMode : DeleteMode
  previousDeleteMode : Option DeleteMode
  identified : Bool
  keyColumns : List C
  descriptors : Dict C Descriptor
  nativeColumns : Dict C Descriptor
  softDeletes : Dict (Token V) (KeylessOperation C V)

/-- The part of a fold state that operations on rows do not touch. -/
def TableWork.config (item : TableWork C V) : FoldConfig C V where
  snapshot := item.snapshot
  incremental := item.incremental
  keyless := item.keyless
  deleteMode := item.deleteMode
  previousDeleteMode := item.previousDeleteMode
  identified := item.identified
  keyColumns := item.keyColumns
  descriptors := item.descriptors
  nativeColumns := item.nativeColumns
  softDeletes := item.softDeletes

/-- A state with other descriptor maps. -/
def TableWork.redescribe (item : TableWork C V) (descriptors nativeColumns : Dict C Descriptor) :
    TableWork C V :=
  { item with descriptors := descriptors, nativeColumns := nativeColumns }

section Config

variable [DecidableEq C] [DecidableEq V] (item : TableWork C V) (k : Token V)

omit [DecidableEq C] in
@[simp] theorem config_setEntries (entries : List (Entry C V)) :
    (item.setEntries k entries).config = item.config := rfl

omit [DecidableEq C] in
@[simp] theorem config_track : (item.track k).config = item.config := rfl

omit [DecidableEq C] in
@[simp] theorem config_clearTombstone : (item.clearTombstone k).config = item.config := rfl

omit [DecidableEq C] in
@[simp] theorem config_addTombstone : (item.addTombstone k).config = item.config := rfl

omit [DecidableEq C] [DecidableEq V] in
@[simp] theorem config_truncate : item.truncate.config = item.config := rfl

omit [DecidableEq C] in
@[simp] theorem config_seed : (item.seed k).config = item.config := by
  unfold TableWork.seed
  split <;> rfl

omit [DecidableEq C] in
@[simp] theorem config_resolveStart (probe : Probe C V) :
    (item.resolveStart probe k).config = item.config := by
  simp only [TableWork.resolveStart]
  split
  · split_ifs <;> rfl
  · rfl

@[simp] theorem config_settleStart (probe : Probe C V) :
    (item.settleStart probe k).config = item.config := by
  simp only [TableWork.settleStart]
  split_ifs <;> simp

omit [DecidableEq C] in
@[simp] theorem multi_seed : (item.seed k).multi = item.multi := by
  unfold TableWork.seed
  split <;> rfl

omit [DecidableEq C] in
@[simp] theorem multi_resolveStart (probe : Probe C V) :
    (item.resolveStart probe k).multi = item.multi := by
  simp only [TableWork.resolveStart]
  split
  · split_ifs <;> rfl
  · rfl

@[simp] theorem multi_settleStart (probe : Probe C V) :
    (item.settleStart probe k).multi = item.multi := by
  simp only [TableWork.settleStart]
  split_ifs <;> simp

omit [DecidableEq C] in
@[simp] theorem config_place (p : RowPatch C V) (source : Option (Token V)) :
    (item.place k p source).config = item.config := by
  simp [TableWork.place]

end Config

namespace Layout

variable (layout : Layout C)

/-- Every descriptor of a map is the catalog's. -/
def Consistent [DecidableEq C] (descriptors : Dict C Descriptor) : Prop :=
  ∀ c d, descriptors.get? c = some d → d = layout.catalog c

/-- The configuration of a live fold of the table in hard-delete mode. -/
structure Configured [DecidableEq C] (config : FoldConfig C V) : Prop where
  snapshot : config.snapshot = false
  incremental : config.incremental = false
  keyless : config.keyless = false
  deleteMode : config.deleteMode = .hard
  previousDeleteMode : config.previousDeleteMode = none
  keyColumns : config.identified = true → config.keyColumns = layout.keyColumns
  descriptors : layout.Consistent config.descriptors
  nativeColumns : layout.Consistent config.nativeColumns
  softDeletes : config.softDeletes = ∅

/-- Two states that differ in their descriptor maps only; descriptors are not forgotten, and those
of the second state are the catalog's. -/
structure Redescribes [DecidableEq C] (item item' : TableWork C V) : Prop where
  eq : item' = item.redescribe item'.descriptors item'.nativeColumns
  descriptors : layout.Consistent item'.descriptors
  nativeColumns : layout.Consistent item'.nativeColumns
  keeps : ∀ c, (item.descriptors.get? c).isSome → (item'.descriptors.get? c).isSome
  keepsNative : ∀ c, (item.nativeColumns.get? c).isSome → (item'.nativeColumns.get? c).isSome

variable {layout} [DecidableEq C] {item item' item'' : TableWork C V}

theorem Consistent.set {d : Dict C Descriptor} (h : layout.Consistent d) {c : C} {x : Descriptor}
    (hx : x = layout.catalog c) : layout.Consistent (d.set c x) := by
  intro j y hy
  rw [Dict.get?_set] at hy
  split_ifs at hy with hjc
  · obtain rfl : x = y := by simpa using hy
    rw [hjc, hx]
  · exact h j y hy

namespace Redescribes

theorem refl (hd : layout.Consistent item.descriptors)
    (hn : layout.Consistent item.nativeColumns) : layout.Redescribes item item :=
  ⟨rfl, hd, hn, fun _ => id, fun _ => id⟩

theorem trans (h : layout.Redescribes item item') (h' : layout.Redescribes item' item'') :
    layout.Redescribes item item'' := by
  refine ⟨?_, h'.descriptors, h'.nativeColumns, fun c hc => h'.keeps c (h.keeps c hc),
    fun c hc => h'.keepsNative c (h.keepsNative c hc)⟩
  rw [h'.eq, h.eq]
  rfl

theorem configured (h : layout.Redescribes item item') (hc : layout.Configured item.config) :
    layout.Configured item'.config := by
  have hd := h.descriptors
  have hn := h.nativeColumns
  rw [h.eq]
  exact ⟨hc.snapshot, hc.incremental, hc.keyless, hc.deleteMode, hc.previousDeleteMode,
    hc.keyColumns, hd, hn, hc.softDeletes⟩

theorem keyColumns_eq (h : layout.Redescribes item item') :
    item'.keyColumns = item.keyColumns := by
  rw [h.eq]
  rfl

end Redescribes

/-! ### Fold keys -/

variable [ToString C] {descriptors : Dict C Descriptor} {updateNative : Bool}

theorem keyComponent_ok (hd : layout.Consistent descriptors)
    (hitem : layout.Consistent item.descriptors) (hnative : layout.Consistent item.nativeColumns)
    {p : C × Option V} {a : String × Option V}
    (h : (keyComponent descriptors updateNative p).run item = .ok a item') :
    a = ((layout.catalog p.1).fingerprint, p.2) ∧ layout.Redescribes item item' ∧
      (updateNative = true → (item'.descriptors.get? p.1).isSome ∧
        (item'.nativeColumns.get? p.1).isSome) := by
  unfold keyComponent at h
  rw [run_bind_eq_ok] at h
  obtain ⟨_, _, hget, h⟩ := h
  cases hget
  cases hdesc : (descriptors.get? p.1).or (item.descriptors.get? p.1) with
  | none => simp [hdesc] at h
  | some d =>
    have hcat : d = layout.catalog p.1 := by
      rcases Option.or_eq_some_iff.1 hdesc with hx | ⟨-, hx⟩
      · exact hd _ _ hx
      · exact hitem _ _ hx
    simp only [hdesc] at h
    cases updateNative with
    | false =>
      simp only [Bool.false_eq_true, if_false] at h
      cases h
      exact ⟨by rw [hcat], .refl hitem hnative, by simp⟩
    | true =>
      simp only [if_true, EStateM.run_bind, EStateM.run_set] at h
      split_ifs at h with hnt
      · cases h
        refine ⟨by rw [hcat], ⟨rfl, hitem.set hcat, hnative.set hcat, ?_, ?_⟩, by simp⟩
        · intro c hc
          simp only [Dict.get?_set]
          split_ifs <;> simp [hc]
        · intro c hc
          simp only [Dict.get?_set]
          split_ifs <;> simp [hc]
      · cases h

private theorem mapM_keyComponent_ok (hd : layout.Consistent descriptors) (values : C → Option V)
    (cs : List C) {item item' : TableWork C V} (hitem : layout.Consistent item.descriptors)
    (hnative : layout.Consistent item.nativeColumns) {key : Token V}
    (h : ((cs.map fun c => (c, values c)).mapM (keyComponent descriptors updateNative)).run item =
      .ok key item') :
    key = cs.map (fun c => ((layout.catalog c).fingerprint, values c)) ∧
      layout.Redescribes item item' ∧
      (updateNative = true → ∀ c ∈ cs, (item'.descriptors.get? c).isSome ∧
        (item'.nativeColumns.get? c).isSome) := by
  induction cs generalizing item key with
  | nil =>
    cases h
    exact ⟨rfl, .refl hitem hnative, by simp⟩
  | cons c cs ih =>
    rw [List.map_cons, List.mapM_cons, run_bind_eq_ok] at h
    obtain ⟨a, item₁, h₁, h⟩ := h
    rw [run_bind_eq_ok] at h
    obtain ⟨rest, item₂, h₂, h₃⟩ := h
    cases h₃
    obtain ⟨rfl, hr₁, hc⟩ := keyComponent_ok hd hitem hnative h₁
    obtain ⟨rfl, hr₂, hcs⟩ := ih hr₁.descriptors hr₁.nativeColumns h₂
    refine ⟨rfl, hr₁.trans hr₂, fun hu c' hc' => ?_⟩
    rcases List.mem_cons.1 hc' with rfl | hc'
    · exact ⟨hr₂.keeps _ (hc hu).1, hr₂.keepsNative _ (hc hu).2⟩
    · exact hcs hu c' hc'

/-- The fold key of key column values, when it can be computed. -/
theorem keyToken_ok (hd : layout.Consistent descriptors) (hc : layout.Configured item.config)
    (hkeys : item.keyColumns = layout.keyColumns) {values : C → Option V} {key : Token V}
    (h : (keyToken values descriptors updateNative).run item = .ok key item') :
    key = layout.token values ∧ layout.Redescribes item item' ∧
      (updateNative = true → ∀ c ∈ layout.keyColumns, (item'.descriptors.get? c).isSome ∧
        (item'.nativeColumns.get? c).isSome) := by
  unfold keyToken at h
  rw [run_bind_eq_ok] at h
  obtain ⟨_, _, hget, h⟩ := h
  cases hget
  simp only [hkeys, layout.keyColumns_ne_nil, if_false] at h
  exact mapM_keyComponent_ok hd values _ hc.descriptors hc.nativeColumns h

/-- A key component has a descriptor, and the catalog can be delivered. -/
theorem keyComponent_total (updateNative : Bool) (hd : layout.Consistent descriptors)
    (hitem : layout.Consistent item.descriptors) {p : C × Option V}
    (hdesc : ((descriptors.get? p.1).or (item.descriptors.get? p.1)).isSome)
    (hnt : (layout.catalog p.1).hasNativeType true) :
    ∃ a item', (keyComponent descriptors updateNative p).run item = .ok a item' := by
  obtain ⟨d, hdesc⟩ := Option.isSome_iff_exists.1 hdesc
  have hcat : d = layout.catalog p.1 := by
    rcases Option.or_eq_some_iff.1 hdesc with hx | ⟨-, hx⟩
    · exact hd _ _ hx
    · exact hitem _ _ hx
  subst hcat
  unfold keyComponent
  simp only [EStateM.run_bind, EStateM.run_get, hdesc]
  cases updateNative with
  | false => exact ⟨_, _, rfl⟩
  | true =>
    simp only [if_true, EStateM.run_bind, EStateM.run_set, hnt, EStateM.run_modify,
      EStateM.run_pure]
    exact ⟨_, _, rfl⟩

private theorem mapM_keyComponent_total (hd : layout.Consistent descriptors)
    (values : C → Option V) (cs : List C) {item : TableWork C V}
    (hitem : layout.Consistent item.descriptors) (hnative : layout.Consistent item.nativeColumns)
    (hdesc : ∀ c ∈ cs, ((descriptors.get? c).or (item.descriptors.get? c)).isSome)
    (hnt : ∀ c ∈ cs, (layout.catalog c).hasNativeType true) :
    ∃ key item', ((cs.map fun c => (c, values c)).mapM
      (keyComponent descriptors updateNative)).run item = .ok key item' := by
  induction cs generalizing item with
  | nil => exact ⟨_, _, rfl⟩
  | cons c cs ih =>
    obtain ⟨a, item₁, h₁⟩ := keyComponent_total updateNative hd hitem
      (p := (c, values c)) (hdesc c List.mem_cons_self) (hnt c List.mem_cons_self)
    obtain ⟨-, hr, -⟩ := keyComponent_ok hd hitem hnative h₁
    have hdesc' : ∀ c ∈ cs, ((descriptors.get? c).or (item₁.descriptors.get? c)).isSome := by
      intro c' hc'
      have := hdesc c' (List.mem_cons_of_mem _ hc')
      rw [Option.isSome_or, Bool.or_eq_true] at this ⊢
      exact this.imp id (hr.keeps c')
    obtain ⟨key, item', h₂⟩ := ih hr.descriptors hr.nativeColumns hdesc'
      fun c' hc' => hnt c' (List.mem_cons_of_mem _ hc')
    refine ⟨a :: key, item', ?_⟩
    rw [List.map_cons, List.mapM_cons, run_bind_of_ok h₁, run_bind_of_ok h₂]
    rfl

/-- The fold key can be computed when every key column has a deliverable descriptor. -/
theorem keyToken_total (hd : layout.Consistent descriptors) (hc : layout.Configured item.config)
    (hkeys : item.keyColumns = layout.keyColumns) (values : C → Option V)
    (hdesc : ∀ c ∈ layout.keyColumns,
      ((descriptors.get? c).or (item.descriptors.get? c)).isSome)
    (hnt : ∀ c ∈ layout.keyColumns, (layout.catalog c).hasNativeType true) :
    ∃ key item', (keyToken values descriptors updateNative).run item = .ok key item' := by
  unfold keyToken
  simp only [EStateM.run_bind, EStateM.run_get, hkeys, layout.keyColumns_ne_nil, if_false]
  exact mapM_keyComponent_total hd values _ hc.descriptors hc.nativeColumns hdesc hnt

/-! ### Declaring columns -/

variable [DecidableEq V]

/-- A field of an event's patch carries the catalog's descriptor or none. -/
def FieldConsistent (layout : Layout C) (p : C × FieldValue V) : Prop :=
  ∀ d, p.2.descriptor = some d → d = layout.catalog p.1

theorem declareField_ok (hd : layout.Consistent descriptors)
    (hitem : layout.Consistent item.descriptors) (hnative : layout.Consistent item.nativeColumns)
    {p : C × FieldValue V} (hp : layout.FieldConsistent p)
    (h : (declareField descriptors p).run item = .ok () item') :
    layout.Redescribes item item' ∧
      (p.2.state.bound?.isSome → (item'.nativeColumns.get? p.1).isSome) := by
  unfold declareField at h
  rw [run_bind_eq_ok] at h
  obtain ⟨_, _, hget, h⟩ := h
  cases hget
  cases hdesc : p.2.descriptor.or (descriptors.get? p.1) with
  | none =>
    simp only [hdesc] at h
    split_ifs at h with hb
    · cases h
    · cases h
      exact ⟨.refl hitem hnative, fun hbound => absurd hbound hb⟩
  | some d =>
    have hcat : d = layout.catalog p.1 := by
      rcases Option.or_eq_some_iff.1 hdesc with hx | ⟨-, hx⟩
      · exact hp _ hx
      · exact hd _ _ hx
    simp only [hdesc] at h
    split_ifs at h with hb hnt
    · cases h
      refine ⟨⟨rfl, hitem.set hcat, hnative.set hcat, ?_, ?_⟩, fun _ => by simp⟩
      · intro c hc
        simp only [Dict.get?_set]
        split_ifs <;> simp [hc]
      · intro c hc
        simp only [Dict.get?_set]
        split_ifs <;> simp [hc]
    · cases h
    · cases h
      refine ⟨.refl hitem hnative, fun hbound => ?_⟩
      -- a bound field is not absent, so its column already has the descriptor's fingerprint
      have hstate : p.2.state ≠ .absent := fun hs => by simp [hs, FieldState.bound?] at hbound
      have hprint := not_not.1 (not_and.1 hb hstate)
      cases hget : item.nativeColumns.get? p.1 with
      | none => simp [hget] at hprint
      | some d' => rfl

/-- Declaring the columns of an image touches the descriptor maps only, and declares every column
the image binds. -/
theorem declareFields_ok (hd : layout.Consistent descriptors) (fields : List (C × FieldValue V))
    (hfields : ∀ p ∈ fields, layout.FieldConsistent p) {item item' : TableWork C V}
    (hitem : layout.Consistent item.descriptors) (hnative : layout.Consistent item.nativeColumns)
    (h : (forM fields (declareField descriptors)).run item = .ok () item') :
    layout.Redescribes item item' ∧
      ∀ p ∈ fields, p.2.state.bound?.isSome → (item'.nativeColumns.get? p.1).isSome := by
  induction fields generalizing item with
  | nil =>
    cases h
    exact ⟨.refl hitem hnative, by simp⟩
  | cons p fields ih =>
    rw [List.forM_cons, run_bind_eq_ok] at h
    obtain ⟨_, item₁, h₁, h₂⟩ := h
    obtain ⟨hr, hp⟩ := declareField_ok hd hitem hnative (hfields p List.mem_cons_self) h₁
    obtain ⟨hr', hps⟩ := ih (fun q hq => hfields q (List.mem_cons_of_mem _ hq)) hr.descriptors
      hr.nativeColumns h₂
    refine ⟨hr.trans hr', fun q hq hbound => ?_⟩
    rcases List.mem_cons.1 hq with rfl | hq
    · exact hr'.keepsNative _ (hp hbound)
    · exact hps q hq hbound

/-- A field that is bound has a descriptor, and every catalog type can be delivered. -/
theorem declareField_total (item : TableWork C V) (hd : layout.Consistent descriptors)
    {p : C × FieldValue V}
    (hp : layout.FieldConsistent p)
    (hbound : p.2.state.bound?.isSome → (p.2.descriptor.or (descriptors.get? p.1)).isSome)
    (hnt : (p.2.descriptor.or (descriptors.get? p.1)).isSome → p.2.state ≠ .absent →
      ∀ forKey, (layout.catalog p.1).hasNativeType forKey) :
    ∃ item', (declareField descriptors p).run item = .ok () item' := by
  unfold declareField
  simp only [EStateM.run_bind, EStateM.run_get]
  cases hdesc : p.2.descriptor.or (descriptors.get? p.1) with
  | none =>
    simp only [hdesc] at hbound
    have hb : ¬ p.2.state.bound?.isSome = true := fun hb => by simpa using hbound hb
    simp only [hb]
    exact ⟨_, rfl⟩
  | some d =>
    have hcat : d = layout.catalog p.1 := by
      rcases Option.or_eq_some_iff.1 hdesc with hx | ⟨-, hx⟩
      · exact hp _ hx
      · exact hd _ _ hx
    subst hcat
    dsimp only
    split_ifs with hb hnative
    · exact ⟨_, rfl⟩
    · exact absurd (hnt (by simp [hdesc]) hb.1 _) hnative
    · exact ⟨_, rfl⟩

theorem declareFields_total (item : TableWork C V) (hd : layout.Consistent descriptors)
    (fields : List (C × FieldValue V)) (hfields : ∀ p ∈ fields, layout.FieldConsistent p)
    (hbound : ∀ p ∈ fields, p.2.state.bound?.isSome →
      (p.2.descriptor.or (descriptors.get? p.1)).isSome)
    (hnt : ∀ p ∈ fields, (p.2.descriptor.or (descriptors.get? p.1)).isSome →
      p.2.state ≠ .absent → ∀ forKey, (layout.catalog p.1).hasNativeType forKey) :
    ∃ item', (forM fields (declareField descriptors)).run item = .ok () item' := by
  induction fields generalizing item with
  | nil => exact ⟨_, rfl⟩
  | cons p fields ih =>
    obtain ⟨item₁, h₁⟩ := declareField_total item hd (hfields p List.mem_cons_self)
      (hbound p List.mem_cons_self) (hnt p List.mem_cons_self)
    obtain ⟨item', h₂⟩ := ih item₁ (fun q hq => hfields q (List.mem_cons_of_mem _ hq))
      (fun q hq => hbound q (List.mem_cons_of_mem _ hq))
      (fun q hq => hnt q (List.mem_cons_of_mem _ hq))
    refine ⟨item', ?_⟩
    rw [List.forM_cons, run_bind_of_ok h₁, h₂]

end Layout

end CdcFlight
