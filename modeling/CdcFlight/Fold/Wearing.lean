import CdcFlight.Fold.Counts

/-!
# What the fold knows of a key

Where every column is part of the key, no before-image tells two rows under a key apart. What the
fold of a group then knows of the rows under a key is followed along the history: a delete or an
update is attributed to no row, and empties the key of the destination's own row and of the one row
of the group.

## Main definitions

* `CdcFlight.Layout.KeyOnly`: every column is part of the key.
* `CdcFlight.Wearing`, `CdcFlight.Layout.wear`: what the fold knows of a key, along a history.
* `CdcFlight.Layout.Attributable`: the histories along which no row is missed.
* `CdcFlight.Layout.Worn`: the entries of a key stand as the fold knows its rows.

## Main results

* `CdcFlight.Layout.Worn.inserted`, `CdcFlight.Layout.Worn.deleted`,
  `CdcFlight.Layout.Worn.updated`: one row event at a key.
-/

namespace CdcFlight

open Lib

/-- What the fold knows of the rows under a key. -/
inductive Wearing
  /-- The destination's own row, and some rows of the group. -/
  | own (placed : ℕ)
  /-- Some rows of the group, while the source has one more. -/
  | missed (placed : ℕ)
  /-- All the rows, none of them the destination's own as it was. -/
  | known (placed : ℕ)
deriving DecidableEq, Repr

namespace Wearing

/-- The rows of the source under the key. -/
def rows : Wearing → ℕ
  | own n => n + 1
  | missed n => n + 1
  | known n => n

/-- The concrete entries of the fold under the key. -/
def placed : Wearing → ℕ
  | own n => n
  | missed n => n
  | known n => n

/-- The rows under the key that the fold believes in. -/
def believed : Wearing → ℕ
  | own n => n + 1
  | missed n => n
  | known n => n

/-- One more row is inserted. -/
def inserted : Wearing → Wearing
  | own n => own (n + 1)
  | missed n => missed (n + 1)
  | known n => known (n + 1)

/-- A row is deleted, unless two rows of the group wear the key. -/
def deleted : Wearing → Option Wearing
  | own 0 => some (known 0)
  | own 1 => some (missed 0)
  | missed 0 => some (known 0)
  | missed 1 => some (missed 0)
  | known 1 => some (known 0)
  | _ => none

/-- A row is updated, unless two rows of the group wear the key or the fold knows of none. -/
def updated : Wearing → Option Wearing
  | own 0 => some (known 1)
  | own 1 => some (missed 1)
  | missed 1 => some (missed 1)
  | known 1 => some (known 1)
  | _ => none

end Wearing

namespace Layout

variable {C V : Type} [DecidableEq C] [DecidableEq V] (layout : Layout C)

/-- Every column is part of the key, so that two rows of one key are equal and an update changes the
key or nothing. -/
def KeyOnly : Prop := ∀ c ∈ layout.columns, c ∈ layout.keyColumns

/-- What an event makes of the rows under a key; `none` where the fold raises. -/
def wearStep (k : Token V) (w : Wearing) : SourceEvent C V → Option Wearing
  | .insert r => some (if layout.token r = k then w.inserted else w)
  | .update old _ => if layout.token old = k then w.updated else some w
  | .delete old => if layout.token old = k then w.deleted else some w
  | .truncate => some (.known 0)

/-- What a history makes of the rows under a key. -/
def wear (k : Token V) (w : Wearing) (events : List (SourceEvent C V)) : Option Wearing :=
  events.foldlM (layout.wearStep k) w

/-- What is known of a key before the group. -/
def startWear (D : Multiset (Row C V)) (k : Token V) : Wearing :=
  if (layout.rowsAt D k).card = 0 then .known 0 else .own 0

/-- A history along which the fold raises, or misses no row at its end. What it misses of a key is
counted from the rows that wear the key at the start and the operations on the key. -/
def Attributable (D : Multiset (Row C V)) (events : List (SourceEvent C V)) : Prop :=
  (∃ k, layout.wear k (layout.startWear D k) events = none) ∨
    ∀ k n, layout.wear k (layout.startWear D k) events ≠ some (.missed n)

/-- The entries of a key stand as the fold knows its rows. -/
def Worn (D : Multiset (Row C V)) (item : TableWork C V) (k : Token V) : Wearing → Prop
  | .own n => Entry.start ∈ item.seenAt k ∧ layout.rowsAt D k ≠ 0 ∧ concrete (item.seenAt k) = n
  | .missed n => Entry.start ∉ item.seenAt k ∧ layout.rowsAt D k ≠ 0 ∧ concrete (item.seenAt k) = n
  | .known n => (Entry.start ∈ item.seenAt k → layout.rowsAt D k = 0) ∧
      concrete (item.seenAt k) = n

variable {layout} {D B S S' : Multiset (Row C V)} {item item' item₁ : TableWork C V} {k : Token V}
  {es : List (Entry C V)} {probe : Probe C V} {old new r : Row C V} {w : Wearing}

/-! ### Rows of such a table -/

omit [DecidableEq V] in
/-- Rows under one key are equal. -/
theorem KeyOnly.eq_of_token (h : layout.KeyOnly) (hr : layout.Fits r) (hold : layout.Fits old)
    (htoken : layout.token r = layout.token old) : r = old :=
  eq_of_agree hr hold htoken fun c hc hck => absurd (h c hc) hck

/-- The rows of a key are one row, repeated. -/
theorem KeyOnly.rowsAt_eq (h : layout.KeyOnly) (hS : ∀ s ∈ S, layout.Fits s)
    (hr : layout.Fits r) :
    layout.rowsAt S (layout.token r) =
      Multiset.replicate (layout.rowsAt S (layout.token r)).card r := by
  refine Multiset.eq_replicate_card.2 fun s hs => ?_
  obtain ⟨hs, htoken⟩ := mem_rowsAt.1 hs
  exact h.eq_of_token (hS s hs) hr htoken

/-- Two such tables are equal when each key is worn as often. -/
theorem KeyOnly.eq_of_card (h : layout.KeyOnly) (hS : ∀ s ∈ S, layout.Fits s)
    (hS' : ∀ s ∈ S', layout.Fits s)
    (hcard : ∀ r, layout.Fits r → (layout.rowsAt S (layout.token r)).card =
      (layout.rowsAt S' (layout.token r)).card) : S = S' := by
  refine ext_under layout.token fun k => ?_
  by_cases hk : ∃ r, layout.Fits r ∧ layout.token r = k
  · obtain ⟨r, hr, rfl⟩ := hk
    have hrows := h.rowsAt_eq hS hr
    rw [hcard r hr, ← h.rowsAt_eq hS' hr] at hrows
    exact hrows
  · have hnone (T : Multiset (Row C V)) (hT : ∀ s ∈ T, layout.Fits s) :
        under layout.token T k = 0 :=
      Multiset.filter_eq_nil.2 fun s hs htoken => hk ⟨s, hT s hs, htoken⟩
    rw [hnone S hS, hnone S' hS']

omit [DecidableEq C] in
/-- Keys are distinct where no key is worn twice. -/
theorem keysDistinct_of_card_le (h : ∀ r, (layout.rowsAt S (layout.token r)).card ≤ 1) :
    layout.KeysDistinct S := by
  refine Multiset.nodup_iff_count_le_one.2 fun x => ?_
  by_cases hx : x ∈ S.map layout.key
  · obtain ⟨r, -, rfl⟩ := Multiset.mem_map.1 hx
    have hrows : S.filter (fun s => layout.key r = layout.key s) =
        layout.rowsAt S (layout.token r) := by
      refine Multiset.filter_congr fun s _ => ?_
      rw [layout.token_eq_iff]
      exact eq_comm
    rw [Multiset.count_map, hrows]
    exact h r
  · rw [Multiset.count_eq_zero.2 hx]
    exact Nat.zero_le 1

/-! ### What is known of a key -/

omit [DecidableEq C] in
theorem Worn.placed_eq (h : layout.Worn D item k w) : concrete (item.seenAt k) = w.placed := by
  cases w with
  | own n => exact h.2.2
  | missed n => exact h.2.2
  | known n => exact h.2

omit [DecidableEq C] in
theorem Worn.congr (h : layout.Worn D item k w) (hseen : item'.seenAt k = item.seenAt k) :
    layout.Worn D item' k w := by
  cases w <;> simpa only [Worn, hseen] using h

omit [DecidableEq C] [DecidableEq V] in
theorem concrete_append_patch (p : RowPatch C V) :
    concrete (es ++ [.patch p]) = concrete es + 1 := by
  cases es with
  | nil => rfl
  | cons x es =>
    cases x <;> simp [concrete]

omit [DecidableEq C] in
/-- An insert adds an entry. -/
theorem Worn.inserted (h : layout.Worn D item k w) {p : RowPatch C V}
    (hget : item'.live.get? k = some (item.seenAt k ++ [.patch p])) :
    layout.Worn D item' k w.inserted ∧ w.inserted.rows = w.rows + 1 := by
  have hseen := seenAt_of_get? hget
  have hstart : Entry.start ∈ item'.seenAt k ↔ Entry.start ∈ item.seenAt k := by
    rw [hseen]
    simp
  have hcount : concrete (item'.seenAt k) = concrete (item.seenAt k) + 1 := by
    rw [hseen, concrete_append_patch]
  cases w with
  | own n => exact ⟨⟨hstart.2 h.1, h.2.1, by rw [hcount, h.2.2]⟩, rfl⟩
  | missed n => exact ⟨⟨mt hstart.1 h.1, h.2.1, by rw [hcount, h.2.2]⟩, rfl⟩
  | known n => exact ⟨⟨fun hs => h.1 (hstart.1 hs), by rw [hcount, h.2]⟩, rfl⟩

omit [DecidableEq C] in
/-- A delete that does not raise empties the key, the destination's own row included. -/
theorem Worn.deleted (h : layout.Worn D item k w) (hle : concrete (item.seenAt k) ≤ 1)
    (hpos : 0 < w.rows) (hget : item'.live.get? k = some []) :
    ∃ w', w.deleted = some w' ∧ layout.Worn D item' k w' ∧ w'.rows + 1 = w.rows := by
  have hseen := seenAt_of_get? hget
  have hnone : Entry.start ∉ item'.seenAt k := by
    rw [hseen]
    exact List.not_mem_nil
  have hzero : concrete (item'.seenAt k) = 0 := by
    rw [hseen]
    rfl
  have hknown : layout.Worn D item' k (.known 0) := ⟨fun hs => absurd hs hnone, hzero⟩
  rw [h.placed_eq] at hle
  cases w with
  | own n =>
    obtain rfl | rfl := Nat.le_one_iff_eq_zero_or_eq_one.1 hle
    · exact ⟨_, rfl, hknown, rfl⟩
    · exact ⟨.missed 0, rfl, ⟨hnone, h.2.1, hzero⟩, rfl⟩
  | missed n =>
    obtain rfl | rfl := Nat.le_one_iff_eq_zero_or_eq_one.1 hle
    · exact ⟨_, rfl, hknown, rfl⟩
    · exact ⟨.missed 0, rfl, ⟨hnone, h.2.1, hzero⟩, rfl⟩
  | known n =>
    obtain rfl | rfl := Nat.le_one_iff_eq_zero_or_eq_one.1 hle
    · exact absurd hpos (lt_irrefl 0)
    · exact ⟨_, rfl, hknown, rfl⟩

omit [DecidableEq C] in
/-- An update that does not raise leaves one entry. -/
theorem Worn.updated (h : layout.Worn D item k w) (hle : concrete (item.seenAt k) ≤ 1)
    (hzero : concrete (item.seenAt k) = 0 →
      Entry.start ∈ item.seenAt k ∧ layout.rowsAt D k ≠ 0)
    {x : Entry C V} (hx : x ≠ .start) (hget : item'.live.get? k = some [x]) :
    ∃ w', w.updated = some w' ∧ layout.Worn D item' k w' ∧ w'.rows = w.rows := by
  have hseen := seenAt_of_get? hget
  have hnone : Entry.start ∉ item'.seenAt k := by
    rw [hseen, List.mem_singleton]
    exact Ne.symm hx
  have hone : concrete (item'.seenAt k) = 1 := by
    rw [hseen, concrete_of_notMem (hseen ▸ hnone)]
    rfl
  have hknown : layout.Worn D item' k (.known 1) := ⟨fun hs => absurd hs hnone, hone⟩
  rw [h.placed_eq] at hle hzero
  cases w with
  | own n =>
    obtain rfl | rfl := Nat.le_one_iff_eq_zero_or_eq_one.1 hle
    · exact ⟨_, rfl, hknown, rfl⟩
    · exact ⟨.missed 1, rfl, ⟨hnone, h.2.1, hone⟩, rfl⟩
  | missed n =>
    obtain rfl | rfl := Nat.le_one_iff_eq_zero_or_eq_one.1 hle
    · exact absurd (hzero rfl).1 h.1
    · exact ⟨.missed 1, rfl, ⟨hnone, h.2.1, hone⟩, rfl⟩
  | known n =>
    obtain rfl | rfl := Nat.le_one_iff_eq_zero_or_eq_one.1 hle
    · exact absurd (h.1 (hzero rfl).1) (hzero rfl).2
    · exact ⟨_, rfl, hknown, rfl⟩

omit [DecidableEq C] in
theorem Worn.le_of_deleted (h : layout.Worn D item k w) (hstep : w.deleted.isSome) :
    concrete (item.seenAt k) ≤ 1 := by
  rw [h.placed_eq]
  match w, hstep with
  | .own 0, _ | .own 1, _ | .missed 0, _ | .missed 1, _ | .known 1, _ => simp [Wearing.placed]

omit [DecidableEq C] in
theorem Worn.of_updated (h : layout.Worn D item k w) (hstep : w.updated.isSome) :
    concrete (item.seenAt k) ≤ 1 ∧ (concrete (item.seenAt k) = 0 →
      Entry.start ∈ item.seenAt k ∧ layout.rowsAt D k ≠ 0) := by
  rw [h.placed_eq]
  match w, hstep with
  | .own 0, _ => exact ⟨Nat.zero_le 1, fun _ => ⟨h.1, h.2.1⟩⟩
  | .own 1, _ | .missed 1, _ | .known 1, _ => simp [Wearing.placed]

end Layout

end CdcFlight
