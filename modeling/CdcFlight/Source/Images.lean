import CdcFlight.Source.History

/-!
# The patches of rendered images

What `RowPatch.from_image` makes of an image that renders a row: it binds the columns the image
shows, to the row's values, and no others. The patch of an insert is the inserted row, and the
patch of an update turns the old row into the new one.

## Main results

* `CdcFlight.Layout.apply_fromEvent_insert`, `CdcFlight.Layout.apply_fromEvent_update`.
* `CdcFlight.Layout.get?_distinguishing`: the columns of a full before-image that attribution uses.
-/

namespace CdcFlight

open Lib

namespace Layout

variable {C V : Type} [DecidableEq C] [ColumnValue V] {layout : Layout C}
  {image : Option (Image C V)} {descriptors : Dict C Descriptor}
  {typed : Option (TypedImage C V)} {complete : Bool} {c : C} {x : Option V}

omit [DecidableEq C] in
@[simp] theorem isStructuralMarker_none (x : Option V) : isStructuralMarker x none = false := by
  cases x <;> rfl

/-- The descriptor an image column is classified under cannot make a shown value a placeholder. -/
theorem isStructuralMarker_of_shows
    (hdesc : ∀ d, descriptors.get? c = some d → d = layout.catalog c)
    (h : isStructuralMarker x (some (layout.catalog c)) = false) :
    isStructuralMarker x (descriptors.get? c) = false := by
  cases hd : descriptors.get? c with
  | none => simp
  | some d => rw [hdesc d hd, h]

/-- A shown column decodes to its value. -/
theorem state_imageField_of_shows (hw : layout.WellTyped image descriptors typed)
    (h : layout.Shows image typed c x) :
    (RowPatch.imageField descriptors (typed.getD ∅) c x).state = .of x := by
  obtain ⟨-, hmarker, htyped⟩ := h
  have hfield : (fieldValue x (descriptors.get? c)).state = .of x := by
    simp [fieldValue, isStructuralMarker_of_shows (hw.descriptors_eq c) hmarker]
  unfold RowPatch.imageField
  cases ht : (typed.getD ∅).get? c with
  | none => exact hfield
  | some f =>
    obtain ⟨s, d⟩ := f
    have hs : s = .of x := htyped _ ht
    subst hs
    cases x with
    | none => rfl
    | some v => exact hfield

/-- A shown column is bound to its value. -/
theorem get?_bindableValues_of_shows (hw : layout.WellTyped image descriptors typed)
    (h : layout.Shows image typed c x) :
    (RowPatch.fromImage image descriptors typed complete).bindableValues.get? c = some x := by
  rw [RowPatch.get?_bindableValues, RowPatch.get?_fields_fromImage, h.1]
  simp [state_imageField_of_shows hw h]

/-- A hidden column is not bound. -/
theorem get?_bindableValues_of_hides (h : layout.Hides image descriptors typed c) :
    (RowPatch.fromImage image descriptors typed complete).bindableValues.get? c = none := by
  rw [RowPatch.get?_bindableValues, RowPatch.get?_fields_fromImage]
  rcases h with ⟨f, ht, hf⟩ | ⟨hi, ht⟩ | ⟨v, hi, hd, hmarker, htyped⟩
  · obtain ⟨s, d⟩ := f
    cases hi : (image.getD ∅).get? c with
    | none => cases s <;> simp_all [FieldState.isHidden, FieldState.bound?]
    | some raw =>
      cases s <;> simp_all [RowPatch.imageField, FieldState.isHidden, FieldState.bound?]
  · rw [hi, ht]
    cases descriptors.get? c <;> simp [FieldState.bound?]
  · have hfield : (fieldValue (some v) (descriptors.get? c)).state = .unchangedToast := by
      simp [fieldValue, hd, hmarker]
    rw [hi]
    have himage : (RowPatch.imageField descriptors (typed.getD ∅) c (some v)).state =
        .unchangedToast := by
      unfold RowPatch.imageField
      cases ht : (typed.getD ∅).get? c with
      | none => exact hfield
      | some f =>
        obtain ⟨s, d⟩ := f
        obtain rfl : s = .value v := htyped _ ht
        exact hfield
    simp [himage, FieldState.bound?]

/-- A column outside the table is not bound. -/
theorem get?_bindableValues_of_notMem (hw : layout.WellTyped image descriptors typed)
    (hc : c ∉ layout.columns) :
    (RowPatch.fromImage image descriptors typed complete).bindableValues.get? c = none := by
  have h : layout.Hides image descriptors typed c :=
    Or.inr (Or.inl ⟨hw.image_columns c hc, hw.typed_columns c hc⟩)
  exact get?_bindableValues_of_hides h

/-- A complete image binds the row it shows. -/
theorem apply_fromImage_of_showsAll (hw : layout.WellTyped image descriptors typed)
    {r : Row C V} (hr : layout.Fits r) (h : layout.ShowsAll image typed r) (base : Row C V)
    (hbase : layout.Fits base) :
    (RowPatch.fromImage image descriptors typed complete).apply base = r := by
  funext c
  unfold RowPatch.apply
  by_cases hc : c ∈ layout.columns
  · rw [get?_bindableValues_of_shows hw (h c hc), Option.getD_some]
  · rw [get?_bindableValues_of_notMem hw hc, Option.getD_none, hr c hc, hbase c hc]

/-- An after-image turns the old row into the new one. -/
theorem apply_fromImage_of_showsChange (hw : layout.WellTyped image descriptors typed)
    {old new : Row C V} (hold : layout.Fits old) (hnew : layout.Fits new)
    (h : layout.ShowsChange image descriptors typed old new) :
    (RowPatch.fromImage image descriptors typed complete).apply old = new := by
  funext c
  unfold RowPatch.apply
  by_cases hc : c ∈ layout.columns
  · rcases h c hc with hshow | ⟨hhide, heq⟩
    · rw [get?_bindableValues_of_shows hw hshow, Option.getD_some]
    · rw [get?_bindableValues_of_hides hhide, Option.getD_none, heq]
  · rw [get?_bindableValues_of_notMem hw hc, Option.getD_none, hnew c hc, hold c hc]

/-! ### Patches of events -/

variable {e : PendingRecord C V} {commitId : ℕ} {eventId : String}

/-- The applier's columns play no part in what a patch does to a source row. -/
theorem apply_fromEvent (complete : Bool) (hop : e.op ≠ some .delete) (r : Row C V) :
    (RowPatch.fromEvent e commitId eventId false).apply r =
      (RowPatch.fromImage e.after e.afterDescriptors e.typedAfter complete).apply r := by
  simp only [RowPatch.fromEvent, hop, if_false]
  rfl

theorem apply_fromEvent_insert (commitId : ℕ) (eventId : String) {r : Row C V}
    (hr : layout.Fits r)
    (h : layout.RowEvent .create r e) (hafter : layout.ShowsAll e.after e.typedAfter r) :
    (RowPatch.fromEvent e commitId eventId false).complete = true ∧
      (RowPatch.fromEvent e commitId eventId false).apply (fun _ => none) = r := by
  refine ⟨by simp [RowPatch.fromEvent, RowPatch.fromImage, h.op], ?_⟩
  rw [apply_fromEvent true (by simp [h.op])]
  exact apply_fromImage_of_showsAll h.after hr hafter _ fun _ _ => rfl

theorem apply_fromEvent_update (commitId : ℕ) (eventId : String) {old new : Row C V}
    (hold : layout.Fits old) (hnew : layout.Fits new) (h : layout.RowEvent .update new e)
    (hafter : layout.ShowsChange e.after e.afterDescriptors e.typedAfter old new) :
    (RowPatch.fromEvent e commitId eventId false).complete = false ∧
      (RowPatch.fromEvent e commitId eventId false).apply old = new := by
  refine ⟨by simp [RowPatch.fromEvent, RowPatch.fromImage, h.op], ?_⟩
  rw [apply_fromEvent false (by simp [h.op])]
  exact apply_fromImage_of_showsChange h.after hold hnew hafter

/-! ### Before-images in attribution -/

variable {item : TableWork C V}

/-- A full before-image tells rows apart by exactly its non-key columns. -/
theorem get?_distinguishing {old : Row C V}
    (hw : layout.WellTyped image descriptors typed) (h : layout.ShowsAll image typed old)
    (hkeys : item.keyColumns = layout.keyColumns)
    (hitem : ∀ c d, item.descriptors.get? c = some d → d = layout.catalog c) (c : C) :
    (distinguishing item image descriptors typed).get? c =
      if c ∈ layout.columns ∧ c ∉ layout.keyColumns then some (old c) else none := by
  unfold distinguishing
  rw [Dict.get?_filterMapValues]
  by_cases hc : c ∈ layout.columns
  · obtain ⟨hi, hmarker, htyped⟩ := h c hc
    have hhidden : (((typed.getD ∅).get? c).any fun f => f.state.isHidden) = false := by
      cases ht : (typed.getD ∅).get? c with
      | none => rfl
      | some f =>
        rw [Option.any_some, htyped f ht]
        cases old c <;> rfl
    have hdesc : isStructuralMarker (old c)
        ((descriptors.get? c).or (item.descriptors.get? c)) = false := by
      cases hd : descriptors.get? c with
      | some d => rw [Option.some_or, hw.descriptors_eq c d hd, hmarker]
      | none =>
        cases hd' : item.descriptors.get? c with
        | none => simp
        | some d => rw [Option.none_or, hitem c d hd', hmarker]
    rw [hi, Option.bind_some]
    simp [hhidden, hdesc, hkeys, hc]
  · simp [hw.image_columns c hc, hc]

end Layout

end CdcFlight
