import CdcFlight.Source.History

/-!
# The records of physical operations

A record for every physical operation, as pgoutput sends it: the key, the columns of the old row
that the replica identity covers, and the columns of the new row that were sent. A column left out
of an after-image is one the update did not change.

## Main definitions

* `CdcFlight.Layout.Sends`: the columns sent, and the promise that nothing sent is a placeholder.
* `CdcFlight.Layout.record`: the record of an operation.

## Main results

* `CdcFlight.Layout.renders_record`: the record renders the operation.
-/

namespace CdcFlight

open Lib

namespace Layout

variable {C V : Type} (layout : Layout C)

/-- The columns of the old and of the new row that a record carries. -/
structure Sends where
  key_nodup : layout.keyColumns.Nodup
  columns_nodup : layout.columns.Nodup
  before : List C
  before_nodup : before.Nodup
  before_subset : ∀ c ∈ before, c ∈ layout.columns
  key_subset : ∀ c ∈ layout.keyColumns, c ∈ before
  after : List C
  after_nodup : after.Nodup
  after_subset : ∀ c ∈ after, c ∈ layout.columns

variable {layout} [ColumnValue V]

/-- No value of the row is taken for a placeholder. -/
def Unmarked (layout : Layout C) (r : Row C V) : Prop :=
  ∀ c ∈ layout.columns, isStructuralMarker (r c) (some (layout.catalog c)) = false

/-- What a record that leaves columns out assumes of its operation. -/
def Sends.Fit (s : layout.Sends) : SourceEvent C V → Prop
  | .insert r => layout.Unmarked r
  | .update old new => layout.Unmarked old ∧ layout.Unmarked new ∧
      layout.key new = layout.key old ∧ ∀ c ∈ layout.columns, c ∉ s.after → new c = old c
  | .delete old => layout.Unmarked old
  | .truncate => True

instance (r : Row C V) : Decidable (layout.Unmarked r) :=
  inferInstanceAs (Decidable (∀ c ∈ layout.columns, _))

instance [DecidableEq C] [DecidableEq V] (s : layout.Sends) (event : SourceEvent C V) :
    Decidable (s.Fit event) :=
  match event with
  | .insert r => inferInstanceAs (Decidable (layout.Unmarked r))
  | .update old new => inferInstanceAs (Decidable (layout.Unmarked old ∧ layout.Unmarked new ∧
      layout.key new = layout.key old ∧ ∀ c ∈ layout.columns, c ∉ s.after → new c = old c))
  | .delete old => inferInstanceAs (Decidable (layout.Unmarked old))
  | .truncate => inferInstanceAs (Decidable True)

omit [ColumnValue V] in
/-- The catalog descriptors of a list of columns. -/
def describe (layout : Layout C) (columns : List C) (h : columns.Nodup) : Dict C Descriptor :=
  Dict.tabulate columns h layout.catalog

omit [ColumnValue V] in
/-- The record of an operation. -/
def Sends.record (s : layout.Sends) : SourceEvent C V → PendingRecord C V
  | .insert r =>
    { kind := .data
      op := some .create
      key := some (Dict.tabulate layout.keyColumns s.key_nodup r)
      after := some (Dict.tabulate layout.columns s.columns_nodup r)
      keyDescriptors := layout.describe layout.keyColumns s.key_nodup
      afterDescriptors := layout.describe layout.columns s.columns_nodup }
  | .update old new =>
    { kind := .data
      op := some .update
      key := some (Dict.tabulate layout.keyColumns s.key_nodup new)
      before := some (Dict.tabulate s.before s.before_nodup old)
      after := some (Dict.tabulate s.after s.after_nodup new)
      keyDescriptors := layout.describe layout.keyColumns s.key_nodup
      beforeDescriptors := layout.describe layout.columns s.columns_nodup
      afterDescriptors := layout.describe layout.columns s.columns_nodup }
  | .delete old =>
    { kind := .data
      op := some .delete
      key := some (Dict.tabulate layout.keyColumns s.key_nodup old)
      before := some (Dict.tabulate s.before s.before_nodup old)
      keyDescriptors := layout.describe layout.keyColumns s.key_nodup
      beforeDescriptors := layout.describe layout.columns s.columns_nodup }
  | .truncate => { kind := .truncate, op := some .truncate }

variable [DecidableEq C]

omit [ColumnValue V] in
private theorem describe_eq {columns : List C} (hnd : columns.Nodup) (c : C) (d : Descriptor)
    (h : (layout.describe columns hnd).get? c = some d) : d = layout.catalog c := by
  rw [describe, Dict.get?_tabulate] at h
  split_ifs at h
  exact (Option.some.inj h).symm

omit [ColumnValue V] in
private theorem wellTyped_tabulate {columns : List C} (hnd : columns.Nodup)
    (hsub : ∀ c ∈ columns, c ∈ layout.columns) (h : layout.columns.Nodup) (r : Row C V) :
    layout.WellTyped (some (Dict.tabulate columns hnd r)) (layout.describe layout.columns h)
      none where
  image_columns c hc := by
    rw [Option.getD_some, Dict.get?_tabulate, if_neg fun hmem => hc (hsub c hmem)]
  typed_columns _ _ := rfl
  descriptors_eq := describe_eq h
  typed_eq _ _ _ hf := nomatch hf

private theorem shows_tabulate {columns : List C} (hnd : columns.Nodup) {r : Row C V}
    (hr : layout.Unmarked r) {c : C} (hc : c ∈ columns) (hcol : c ∈ layout.columns) :
    layout.Shows (some (Dict.tabulate columns hnd r)) none c (r c) := by
  refine ⟨?_, hr c hcol, fun f hf => nomatch hf⟩
  rw [Option.getD_some, Dict.get?_tabulate, if_pos hc]

private theorem hides_tabulate {columns : List C} (hnd : columns.Nodup) (r : Row C V)
    (descriptors : Dict C Descriptor) {c : C} (hc : c ∉ columns) :
    layout.Hides (some (Dict.tabulate columns hnd r)) descriptors none c := by
  refine Or.inr (Or.inl ⟨?_, rfl⟩)
  rw [Option.getD_some, Dict.get?_tabulate, if_neg hc]

omit [ColumnValue V] in
private theorem wellTyped_none :
    layout.WellTyped (none : Option (Image C V)) ∅ none :=
  ⟨fun _ _ => rfl, fun _ _ => rfl, nofun, nofun⟩

omit [ColumnValue V] in
private theorem key_tabulate (h : layout.keyColumns.Nodup) (r : Row C V) :
    ∃ k, some (Dict.tabulate layout.keyColumns h r) = some k ∧ k.keys = layout.keyColumns ∧
      ∀ c ∈ layout.keyColumns, k.get? c = some (r c) :=
  ⟨_, rfl, Dict.keys_tabulate _ _ _, fun c hc => by rw [Dict.get?_tabulate, if_pos hc]⟩

private theorem showsSome_before (s : layout.Sends) {old : Row C V} (hold : layout.Unmarked old) :
    layout.ShowsSome (some (Dict.tabulate s.before s.before_nodup old))
      (layout.describe layout.columns s.columns_nodup) none old := by
  refine ⟨fun c hc => ?_, fun c hc => Or.inl ?_⟩
  · by_cases hb : c ∈ s.before
    · exact Or.inl (shows_tabulate _ hold hb hc)
    · exact Or.inr (hides_tabulate _ _ _ hb)
  · exact shows_tabulate _ hold (s.key_subset c hc) (layout.keyColumns_subset c hc)

/-- **Every physical operation has a record.** -/
theorem Sends.renders_record (s : layout.Sends) {event : SourceEvent C V} (h : s.Fit event) :
    layout.Renders event (s.record event) := by
  cases event with
  | insert r =>
    refine .insert ⟨rfl, rfl, rfl, nofun, key_tabulate s.key_nodup r, wellTyped_none,
      wellTyped_tabulate s.columns_nodup (fun _ => id) s.columns_nodup r,
      describe_eq s.key_nodup⟩ fun c hc => ?_
    exact shows_tabulate s.columns_nodup h hc hc
  | update old new =>
    obtain ⟨hold, hnew, -, hkept⟩ := h
    refine .update ⟨rfl, rfl, rfl, nofun, key_tabulate s.key_nodup new,
      wellTyped_tabulate s.before_nodup s.before_subset s.columns_nodup old,
      wellTyped_tabulate s.after_nodup s.after_subset s.columns_nodup new,
      describe_eq s.key_nodup⟩ (showsSome_before s hold) fun c hc => ?_
    by_cases ha : c ∈ s.after
    · exact Or.inl (shows_tabulate _ hnew ha hc)
    · exact Or.inr ⟨hides_tabulate _ _ _ ha, hkept c hc ha⟩
  | delete old =>
    refine .delete ⟨rfl, rfl, rfl, nofun, key_tabulate s.key_nodup old,
      wellTyped_tabulate s.before_nodup s.before_subset s.columns_nodup old, wellTyped_none,
      describe_eq s.key_nodup⟩
      (showsSome_before s h) fun c hc => ?_
    exact shows_tabulate _ h (s.key_subset c hc) (layout.keyColumns_subset c hc)
  | truncate => exact .truncate rfl nofun

/-- The record of an operation under `REPLICA IDENTITY FULL` carries the whole old row. -/
theorem Sends.fullBefore_record (s : layout.Sends) (hfull : ∀ c ∈ layout.columns, c ∈ s.before)
    {event : SourceEvent C V} (h : s.Fit event) : layout.FullBefore event (s.record event) := by
  cases event with
  | insert r => trivial
  | update old new => exact fun c hc => shows_tabulate _ h.1 (hfull c hc) hc
  | delete old => exact fun c hc => shows_tabulate _ h (hfull c hc) hc
  | truncate => trivial

omit [ColumnValue V] in
/-- The record names the catalog descriptor of every column. -/
theorem Sends.described_record (s : layout.Sends)
    (hnative : ∀ c ∈ layout.columns, ∀ forKey, (layout.catalog c).hasNativeType forKey)
    (event : SourceEvent C V) (hrow : (s.record event).kind ≠ .truncate) :
    layout.Described (s.record event) := by
  have hget {columns : List C} (hnd : columns.Nodup) (c : C) (hc : c ∈ columns) :
      (layout.describe columns hnd).get? c = some (layout.catalog c) := by
    rw [describe, Dict.get?_tabulate, if_pos hc]
  cases event with
  | insert r => exact ⟨hget s.key_nodup, hget s.columns_nodup, hnative⟩
  | update old new => exact ⟨hget s.key_nodup, hget s.columns_nodup, hnative⟩
  | delete old => exact ⟨hget s.key_nodup, hget s.columns_nodup, hnative⟩
  | truncate => exact absurd rfl hrow

end Layout

/-! ### A concrete table -/

namespace Accounts

/-- The columns of a table of accounts. -/
inductive Column
  | id
  | note
  | body
deriving DecidableEq, Repr

instance : ToString Column where
  toString
    | .id => "id"
    | .note => "note"
    | .body => "body"

/-- The table, keyed by `id`. -/
def layout : Layout Column where
  columns := [.id, .note, .body]
  keyColumns := [.id]
  catalog c := { fingerprint := toString c }
  keyColumns_ne_nil := by decide
  keyColumns_subset := by decide

/-- A row of the table. -/
def row (id note body : String) : Row Column String
  | .id => some id
  | .note => some note
  | .body => some body

/-- Records under `REPLICA IDENTITY FULL`. -/
def full : layout.Sends where
  key_nodup := by decide
  columns_nodup := by decide
  before := [.id, .note, .body]
  before_nodup := by decide
  before_subset := by decide
  key_subset := by decide
  after := [.id, .note, .body]
  after_nodup := by decide
  after_subset := by decide

/-- Records that carry the key of the old row, and leave an unchanged `body` out of the new
row. -/
def sparse : layout.Sends where
  key_nodup := by decide
  columns_nodup := by decide
  before := [.id]
  before_nodup := by decide
  before_subset := by decide
  key_subset := by decide
  after := [.id, .note]
  after_nodup := by decide
  after_subset := by decide

theorem fits (r : Row Column String) : layout.Fits r := by
  intro c hc
  cases c <;> exact absurd (by decide) hc

end Accounts

end CdcFlight
