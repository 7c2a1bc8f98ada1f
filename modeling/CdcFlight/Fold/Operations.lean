import CdcFlight.Fold.Availability

/-!
# The operation of a record

What the fold of a row event does apart from descriptors and bookkeeping: one operation on the rows
of its key. A fold that does not raise runs that operation on a state with the same rows, and a
described event raises only where its operation does.

## Main definitions

* `CdcFlight.Layout.operation`: the operation of an event on the rows of its key.
* `CdcFlight.Layout.Ready`: the state on which the operation runs.

## Main results

* `CdcFlight.Layout.foldEvent_operation`, `CdcFlight.Layout.foldEvent_operation_total`.
* `CdcFlight.Layout.Simulates.of_operation`: the simulation relation after a record, from what its
  operation did to the rows.
-/

namespace CdcFlight

open Lib

namespace Layout

variable {C V : Type} [DecidableEq C] [DecidableEq V] [ColumnValue V] (layout : Layout C)

/-- The operation of a row event on the rows of its key. -/
def operation (probe : Probe C V) (e : PendingRecord C V) (patch : RowPatch C V) :
    SourceEvent C V → Fold C V Unit
  | .insert r => modify (·.place (layout.token r) patch none)
  | .update old _ => update probe (layout.token old) patch e.beforeImage
  | .delete old => do
    let _ ← remove probe (layout.token old) e.beforeImage
  | .truncate => modify TableWork.truncate

/-- Two states with the same rows and the same truncates. -/
structure SameRows (item item' : TableWork C V) : Prop where
  live : item'.live = item.live
  truncated : item'.truncated = item.truncated
  deletedKeys : item'.deletedKeys = item.deletedKeys
  startPresent : item'.startPresent = item.startPresent
  multi : item'.multi = item.multi
  truncateMarks : item'.truncateMarks = item.truncateMarks
  truncates : item'.truncates = item.truncates

/-- The state on which the operation of a row event runs: the rows are those before the event, and
the table is configured under its identity. -/
structure Ready (item item' : TableWork C V) : Prop where
  same : SameRows item item'
  configured : layout.Configured item'.config
  identified : item'.identified = true
  keyColumns : item'.keyColumns = layout.keyColumns
  declared : ∀ c ∈ layout.keyColumns, (item'.nativeColumns.get? c).isSome
  keepsNative : ∀ c, (item.nativeColumns.get? c).isSome → (item'.nativeColumns.get? c).isSome

/-- What is left to do after the operation: the rows and the configuration stay. -/
structure Settles (item item' : TableWork C V) : Prop where
  same : SameRows item item'
  config : item'.config = item.config

variable {layout} {D S S' : Multiset (Row C V)} {item item' item₁ item₂ : TableWork C V}
  {probe : Probe C V} {e : PendingRecord C V} {eventId : String} {op : Op} {r old new : Row C V}
  {q : RowPatch C V} {event : SourceEvent C V}

omit [DecidableEq C] [DecidableEq V] [ColumnValue V] in
theorem SameRows.refl (item : TableWork C V) : SameRows item item :=
  ⟨rfl, rfl, rfl, rfl, rfl, rfl, rfl⟩

omit [DecidableEq C] [DecidableEq V] [ColumnValue V] in
theorem SameRows.trans (h : SameRows item item₁) (h' : SameRows item₁ item') :
    SameRows item item' :=
  ⟨h'.live.trans h.live, h'.truncated.trans h.truncated, h'.deletedKeys.trans h.deletedKeys,
    h'.startPresent.trans h.startPresent, h'.multi.trans h.multi,
    h'.truncateMarks.trans h.truncateMarks, h'.truncates.trans h.truncates⟩

omit [ColumnValue V] in
theorem SameRows.represents (h : SameRows item item') (hr : layout.Represents D item S) :
    layout.Represents D item' S :=
  hr.congr h.live h.truncated h.deletedKeys h.startPresent

omit [DecidableEq V] [ColumnValue V] in
theorem SameRows.of_redescribes (h : layout.Redescribes item item') : SameRows item item' := by
  have heq := h.eq
  constructor <;> rw [heq] <;> rfl

omit [DecidableEq V] [ColumnValue V] in
/-- A ready state with other descriptors is ready. -/
theorem Ready.redescribes (h : layout.Ready item item₁) (hr : layout.Redescribes item₁ item') :
    layout.Ready item item' where
  same := h.same.trans (.of_redescribes hr)
  configured := hr.configured h.configured
  identified := by
    rw [hr.eq]
    exact h.identified
  keyColumns := hr.keyColumns_eq.trans h.keyColumns
  declared c hc := hr.keepsNative c (h.declared c hc)
  keepsNative c hc := hr.keepsNative c (h.keepsNative c hc)

/-! ### What the operations leave -/

section Left

variable {k : Token V} {before : BeforeImage C V} {what : Attributed} {index : Option ℕ}

/-- The state in which attribution among the rows of a key decides. -/
def settledAt (probe : Probe C V) (k : Token V) (item : TableWork C V) : TableWork C V :=
  resolveMany probe k (item.settleStart probe k)

omit [ColumnValue V] in
@[simp] theorem config_settledAt (item : TableWork C V) :
    (settledAt probe k item).config = item.config := by
  unfold settledAt resolveMany
  split_ifs <;> simp

/-- Attribution decides and leaves the rows as they are. -/
theorem targetEntry_state
    (h : (targetEntry probe k before what).run item = .ok index item') :
    item' = resolveMany probe k item := by
  rw [run_targetEntry] at h
  split at h
  · cases h
    rfl
  · cases h
    rfl
  · exact (attributeAmong_ok h).1

/-- The rows of a key after the one that was attributed is taken away. -/
def rowsLeft (item : TableWork C V) (k : Token V) (index : Option ℕ) : List (Entry C V) :=
  match index with
  | none => []
  | some i => (item.entriesAt k).eraseIdx i

/-- The state after the row of a delete is taken away. -/
def taken (item : TableWork C V) (k : Token V) (index : Option ℕ) : TableWork C V :=
  let item' := item.setEntries k (rowsLeft item k index)
  (if rowsLeft item k index = [] then item'.addTombstone k else item').track k

/-- The state after the row of an update is replaced. -/
def replaced (item : TableWork C V) (k : Token V) (patch : RowPatch C V) (index : Option ℕ) :
    TableWork C V :=
  (item.setEntries k (match index with
    | none => [.patch patch]
    | some i => (item.entriesAt k).modify i (Entry.updated patch))).track k

omit [DecidableEq C] [ColumnValue V] in
@[simp] theorem config_taken (item : TableWork C V) :
    (taken item k index).config = item.config := by
  unfold taken
  dsimp only
  split_ifs <;> rfl

omit [ColumnValue V] in
@[simp] theorem config_replaced (item : TableWork C V) {patch : RowPatch C V} :
    (replaced item k patch index).config = item.config := rfl

/-- A delete that does not raise takes away the row that is attributed. -/
theorem remove_state {removed : Option (Entry C V)}
    (h : (remove probe k before).run item = .ok removed item') :
    ∃ index, (targetEntry probe k before .delete).run (item.settleStart probe k) =
        .ok index (settledAt probe k item) ∧ item' = taken (settledAt probe k item) k index := by
  unfold remove at h
  simp only [EStateM.run_bind, EStateM.run_modify] at h
  cases htarget : (targetEntry probe k before .delete).run (item.settleStart probe k) with
  | error r item₁ =>
    rw [htarget] at h
    cases h
  | ok index item₁ =>
    obtain rfl := targetEntry_state htarget
    rw [htarget] at h
    simp only [EStateM.run_get] at h
    refine ⟨index, rfl, ?_⟩
    unfold taken rowsLeft settledAt
    cases index with
    | none =>
      cases h
      rfl
    | some i =>
      by_cases hleft :
        ((resolveMany probe k (item.settleStart probe k)).entriesAt k).eraseIdx i = []
      · simp only [hleft, if_true, EStateM.run_bind, EStateM.run_modify] at h ⊢
        cases h
        rfl
      · simp only [hleft, if_false, EStateM.run_bind, EStateM.run_modify] at h ⊢
        cases h
        rfl

/-- A delete does not raise where attribution does not. -/
theorem remove_of_targetEntry {item₁ : TableWork C V}
    (h : (targetEntry probe k before .delete).run (item.settleStart probe k) = .ok index item₁) :
    ∃ removed item', (remove probe k before).run item = .ok removed item' := by
  unfold remove
  simp only [EStateM.run_bind, EStateM.run_modify, h, EStateM.run_get]
  split_ifs <;> exact ⟨_, _, rfl⟩

/-- An update that does not raise replaces the row that is attributed. -/
theorem update_state (hinc : item.incremental = false) {patch : RowPatch C V}
    (h : (update probe k patch before).run item = .ok () item') :
    k ∉ item.deletedKeys ∧ (item.settleStart probe k).entriesAt k ≠ [] ∧
      ∃ index, (targetEntry probe k before .update).run (item.settleStart probe k) =
        .ok index (settledAt probe k item) ∧
          item' = replaced (settledAt probe k item) k patch index := by
  unfold update at h
  simp only [EStateM.run_bind, EStateM.run_get] at h
  split_ifs at h with hdel
  · cases h
  simp only [EStateM.run_bind, EStateM.run_set, EStateM.run_get] at h
  have hinc' : (item.settleStart probe k).incremental = false :=
    (congrArg FoldConfig.incremental (config_settleStart item k probe)).trans hinc
  split_ifs at h with hnil
  · simp only [EStateM.run_bind, EStateM.run_get, hinc', Bool.false_and, Bool.false_eq_true,
      if_false] at h
    cases h
  · rw [run_bind_eq_ok] at h
    obtain ⟨index, item₁, htarget, h⟩ := h
    obtain rfl := targetEntry_state htarget
    refine ⟨hdel, hnil, index, htarget, ?_⟩
    cases index with
    | none =>
      cases h
      rfl
    | some i =>
      cases h
      rfl

/-- An update does not raise where a row wears its key and attribution does not raise. -/
theorem update_of_targetEntry {item₁ : TableWork C V} {patch : RowPatch C V}
    (hdel : k ∉ item.deletedKeys) (hne : (item.settleStart probe k).entriesAt k ≠ [])
    (h : (targetEntry probe k before .update).run (item.settleStart probe k) = .ok index item₁) :
    ∃ item', (update probe k patch before).run item = .ok () item' := by
  unfold update
  simp only [EStateM.run_bind, EStateM.run_get, hdel, if_false, EStateM.run_set, hne, h]
  cases index <;> exact ⟨_, rfl⟩

end Left

/-! ### What the operations leave alone -/

section Beside

variable {k : Token V}

/-- Two states that differ at one key only. -/
structure Beside (k : Token V) (item item' : TableWork C V) : Prop where
  live : ∀ j, j ≠ k → item'.live.get? j = item.live.get? j
  multi : ∀ j, j ≠ k → (j ∈ item'.multi ↔ j ∈ item.multi)
  truncated : item'.truncated = item.truncated
  truncateMarks : item'.truncateMarks = item.truncateMarks
  truncates : item'.truncates = item.truncates

namespace Beside

omit [DecidableEq C] [ColumnValue V] in
theorem refl (k : Token V) (item : TableWork C V) : Beside k item item :=
  ⟨fun _ _ => rfl, fun _ _ => Iff.rfl, rfl, rfl, rfl⟩

omit [DecidableEq C] [ColumnValue V] in
theorem trans (h : Beside k item item₁) (h' : Beside k item₁ item') : Beside k item item' :=
  ⟨fun j hj => (h'.live j hj).trans (h.live j hj), fun j hj => (h'.multi j hj).trans (h.multi j hj),
    h'.truncated.trans h.truncated, h'.truncateMarks.trans h.truncateMarks,
    h'.truncates.trans h.truncates⟩

omit [DecidableEq C] [ColumnValue V] in
theorem setEntries (item : TableWork C V) (k : Token V) (es : List (Entry C V)) :
    Beside k item (item.setEntries k es) :=
  ⟨fun j hj => by rw [get?_setEntries, if_neg hj], fun _ _ => Iff.rfl, rfl, rfl, rfl⟩

omit [DecidableEq C] [ColumnValue V] in
theorem track (item : TableWork C V) (k : Token V) : Beside k item (item.track k) := by
  refine ⟨fun _ _ => rfl, fun j hj => ?_, rfl, rfl, rfl⟩
  unfold TableWork.track
  dsimp only
  split_ifs
  · rw [Finset.mem_insert]
    tauto
  · rw [Finset.mem_erase]
    tauto

omit [DecidableEq C] [ColumnValue V] in
theorem seed (item : TableWork C V) (k : Token V) : Beside k item (item.seed k) := by
  unfold TableWork.seed
  split
  · exact refl k item
  · exact setEntries item k _

omit [DecidableEq C] [ColumnValue V] in
theorem resolveStart (probe : Probe C V) (item : TableWork C V) (k : Token V) :
    Beside k item (item.resolveStart probe k) := by
  have hcache (item : TableWork C V) (b : Bool) : Beside k item (item.cacheStart k b) :=
    ⟨fun _ _ => rfl, fun _ _ => Iff.rfl, rfl, rfl, rfl⟩
  simp only [TableWork.resolveStart]
  split
  · split_ifs
    · exact setEntries item k _
    · exact hcache item _
    · exact (hcache item _).trans (setEntries _ k _)
  · exact refl k item

omit [ColumnValue V] in
theorem settleStart (probe : Probe C V) (item : TableWork C V) (k : Token V) :
    Beside k item (item.settleStart probe k) := by
  simp only [TableWork.settleStart]
  split_ifs
  · exact (seed item k).trans (resolveStart probe _ k)
  · exact seed item k

omit [ColumnValue V] in
theorem settledAt (probe : Probe C V) (item : TableWork C V) (k : Token V) :
    Beside k item (settledAt probe k item) := by
  refine (settleStart probe item k).trans ?_
  unfold Layout.settledAt resolveMany
  split_ifs
  · exact resolveStart probe _ k
  · exact refl k _

omit [DecidableEq C] [ColumnValue V] in
theorem taken (item : TableWork C V) (k : Token V) (index : Option ℕ) :
    Beside k item (taken item k index) := by
  have hbury (item : TableWork C V) : Beside k item (item.addTombstone k) :=
    ⟨fun _ _ => rfl, fun _ _ => Iff.rfl, rfl, rfl, rfl⟩
  unfold Layout.taken
  dsimp only
  split_ifs
  · exact ((setEntries item k _).trans (hbury _)).trans (track _ k)
  · exact (setEntries item k _).trans (track _ k)

omit [ColumnValue V] in
theorem replaced (item : TableWork C V) (k : Token V) (patch : RowPatch C V) (index : Option ℕ) :
    Beside k item (replaced item k patch index) :=
  (setEntries item k _).trans (track _ k)

omit [DecidableEq C] [ColumnValue V] in
theorem place (item : TableWork C V) (k : Token V) (patch : RowPatch C V)
    (moveFrom : Option (Token V)) : Beside k item (item.place k patch moveFrom) := by
  have hclear : Beside k item (item.clearTombstone k) :=
    ⟨fun _ _ => rfl, fun _ _ => Iff.rfl, rfl, rfl, rfl⟩
  exact ((hclear.trans (seed _ k)).trans (setEntries _ k _)).trans (track _ k)

end Beside

end Beside

/-! ### From a record to its operation -/

omit [DecidableEq V] in
/-- A row event has the properties of a row event, for the row that wears its key. -/
theorem Renders.rowEvent (h : layout.Renders event e) (hkind : e.kind ≠ .truncate) :
    ∃ r op, layout.RowEvent op r e := by
  cases h with
  | insert he _ => exact ⟨_, _, he⟩
  | update he _ _ => exact ⟨_, _, he⟩
  | delete he _ _ => exact ⟨_, _, he⟩
  | truncate ht _ => exact absurd ht hkind

variable [ToString C]

/-- A transaction does not raise where its records do not and no key ends it worn twice. -/
theorem foldTransaction_eq_ok {commitId : ℕ} {records : List (PendingRecord C V × String)} :
    (foldTransaction probe commitId records).run item = .ok () item' ↔
      (forM records (foldEvent probe commitId)).run item = .ok () item' ∧ item'.multi = ∅ := by
  have hend (item₁ : TableWork C V) : endTransaction.run item₁ = .ok () item' ↔
      item₁ = item' ∧ item'.multi = ∅ := by
    unfold endTransaction
    simp only [EStateM.run_bind, EStateM.run_get]
    constructor
    · intro h
      split_ifs at h with hmulti
      · cases h
      · cases h
        exact ⟨rfl, not_not.1 hmulti⟩
    · rintro ⟨rfl, hmulti⟩
      rw [if_neg (not_not.2 hmulti)]
      rfl
  unfold foldTransaction
  rw [run_bind_eq_ok]
  constructor
  · rintro ⟨_, item₁, hfold, h⟩
    obtain ⟨rfl, hmulti⟩ := (hend item₁).1 h
    exact ⟨hfold, hmulti⟩
  · rintro ⟨hfold, hmulti⟩
    exact ⟨(), item', hfold, (hend item').2 ⟨rfl, hmulti⟩⟩

/-- The record of a truncate empties the table. -/
theorem foldEvent_truncate {commitId : ℕ} (hkind : e.kind = .truncate)
    (hrun : (foldEvent probe commitId (e, eventId)).run item = .ok () item') :
    item' = (item.recordSource e).truncate := by
  unfold foldEvent at hrun
  rw [run_bind_eq_ok] at hrun
  obtain ⟨_, item₁, hobs, hrun⟩ := hrun
  obtain rfl := observe_ok hobs
  dsimp only at hrun
  rw [if_pos hkind, identify_of_truncate hkind] at hrun
  cases hrun
  rfl

omit [ColumnValue V] in
/-- The state after the fold key of the event is known. -/
theorem ready_of_key (hsame : SameRows item item₁) (hc : layout.Configured item₁.config)
    (hid : item₁.identified = true)
    (hkeeps : ∀ c, (item.nativeColumns.get? c).isSome → (item₁.nativeColumns.get? c).isSome)
    (he : layout.RowEvent op r e) {key : Token V}
    (hkey : (keyToken (columnOf e.key)
      (e.afterDescriptors.overlay e.keyDescriptors fun _ _ => true) true).run item₁ =
        .ok key item₂) :
    key = layout.token r ∧ layout.Ready item (item₂.addCdcKey key) ∧
      ∀ c, (item₁.nativeColumns.get? c).isSome → (item₂.nativeColumns.get? c).isSome := by
  have hkeys : item₁.keyColumns = layout.keyColumns := hc.keyColumns hid
  obtain ⟨hkey, hredesc, hsome⟩ := collectKey_ok he hc hkeys hkey
  have hsame₂ := hsame.trans (.of_redescribes hredesc)
  refine ⟨hkey, ⟨hsame₂.trans ⟨rfl, rfl, rfl, rfl, rfl, rfl, rfl⟩, hredesc.configured hc, ?_,
    hredesc.keyColumns_eq.trans hkeys, fun c hcol => (hsome c hcol).2,
    fun c hcol => hredesc.keepsNative c (hkeeps c hcol)⟩, hredesc.keepsNative⟩
  have hid₂ : item₂.identified = true := by
    rw [hredesc.eq]
    exact hid
  exact hid₂

/-- The record of a delete runs its operation. -/
theorem collectDelete_operation (he : layout.RowEvent .delete old e) (h : layout.Ready item item₁)
    (hshow : ∀ c ∈ layout.keyColumns, layout.Shows e.before e.typedBefore c (old c))
    (hrun : (collectDelete probe e eventId).run item₁ = .ok () item') :
    ∃ item₂ item₃, layout.Ready item item₂ ∧
      (operation layout probe e q (.delete old)).run item₂ = .ok () item₃ ∧
      Settles item₃ item' ∧
      ∀ c, (item₁.nativeColumns.get? c).isSome → (item₂.nativeColumns.get? c).isSome := by
  unfold collectDelete at hrun
  rw [run_bind_eq_ok] at hrun
  obtain ⟨key, item₂, hkey, hrun⟩ := hrun
  obtain ⟨rfl, hredesc⟩ := beforeKey_ok he h.configured h.keyColumns hshow hkey
  rw [run_bind_eq_ok] at hrun
  obtain ⟨removed, item₃, hremove, hrun⟩ := hrun
  have hready := h.redescribes hredesc
  have hmode : item₃.deleteMode = .hard := by
    obtain ⟨index, -, rfl⟩ := remove_state hremove
    have hconfig : (taken (settledAt probe (layout.token old) item₂) (layout.token old)
        index).config = item₂.config := by simp
    exact (congrArg FoldConfig.deleteMode hconfig).trans hready.configured.deleteMode
  have hoperation : (operation layout probe e q (.delete old)).run item₂ = .ok () item₃ := by
    rw [operation, run_bind_of_ok hremove]
    rfl
  refine ⟨item₂, item₃, hready, hoperation, ?_, hredesc.keepsNative⟩
  cases hrun
  refine ⟨⟨rfl, rfl, rfl, rfl, rfl, rfl, rfl⟩, ?_⟩
  simp [TableWork.config, hmode]

/-- The record of an update runs its operation. -/
theorem collectUpdate_operation (he : layout.RowEvent .update new e) (h : layout.Ready item item₁)
    (hshow : ∀ c ∈ layout.keyColumns,
      layout.Shows e.before e.typedBefore c (old c) ∨ (e.before.getD ∅).get? c = none)
    (hkey : layout.token new = layout.token old)
    (hrun : (collectUpdate probe e (layout.token new) q).run item₁ = .ok () item') :
    ∃ item₂, layout.Ready item item₂ ∧
      (operation layout probe e q (.update old new)).run item₂ = .ok () item' ∧
      ∀ c, (item₁.nativeColumns.get? c).isSome → (item₂.nativeColumns.get? c).isSome := by
  rw [hkey] at hrun
  obtain ⟨k, hk, hkcols, -⟩ := he.key
  unfold collectUpdate at hrun
  simp only [hk] at hrun
  split_ifs at hrun with hempty hall
  · exact ⟨item₁, h, hrun, fun _ => id⟩
  · rw [run_bind_eq_ok] at hrun
    obtain ⟨key, item₂, hkeyrun, hrun⟩ := hrun
    have hshow' : ∀ c ∈ layout.keyColumns, layout.Shows e.before e.typedBefore c (old c) := by
      intro c hcol
      rcases hshow c hcol with hs | hnone
      · exact hs
      · have hin := List.all_eq_true.1 hall c (hkcols ▸ hcol)
        simp [Dict.contains, hnone] at hin
    obtain ⟨rfl, hredesc⟩ := beforeKey_ok he h.configured h.keyColumns hshow' hkeyrun
    rw [if_pos rfl] at hrun
    exact ⟨item₂, h.redescribes hredesc, hrun, hredesc.keepsNative⟩
  · exact ⟨item₁, h, hrun, fun _ => id⟩

/-- **The operation of a record.** A row event whose fold does not raise runs one operation on the
rows of its key. -/
theorem foldEvent_operation {commitId : ℕ} (h : layout.Simulates D item S)
    (hrender : layout.Renders event e) (hkind : e.kind ≠ .truncate)
    (hkey : ∀ old new, event = .update old new → layout.token new = layout.token old)
    (hrun : (foldEvent probe commitId (e, eventId)).run item = .ok () item') :
    ∃ item₁ item₂, layout.Ready item item₁ ∧
      (operation layout probe e (RowPatch.fromEvent e commitId eventId false) event).run item₁ =
        .ok () item₂ ∧ Settles item₂ item' ∧
      ∀ p ∈ (RowPatch.fromEvent e commitId eventId false).fields.items,
        p.2.state.bound?.isSome → (item₁.nativeColumns.get? p.1).isSome := by
  unfold foldEvent at hrun
  rw [run_bind_eq_ok] at hrun
  obtain ⟨_, item₀, hobs, hrun⟩ := hrun
  obtain rfl := observe_ok hobs
  dsimp only at hrun
  rw [if_neg hkind] at hrun
  obtain ⟨r, op, he⟩ := hrender.rowEvent hkind
  obtain ⟨-, hc, hid, -, -, hnative⟩ := observed_row h he
  have hsame : SameRows item ((item.recordSource e).identify e) := by
    unfold TableWork.identify TableWork.recordSource
    split_ifs <;> exact ⟨rfl, rfl, rfl, rfl, rfl, rfl, rfl⟩
  simp only [EStateM.run_bind, EStateM.run_get] at hrun
  rw [show ((item.recordSource e).identify e).snapshot = false from hc.snapshot] at hrun
  unfold collect at hrun
  rw [if_neg hkind, run_bind_eq_ok] at hrun
  obtain ⟨_, item₁, hdeclare, hrun⟩ := hrun
  obtain ⟨hredesc, hbinds⟩ := declareFields_ok (consistent_descriptors he) _
    (fun p hp => fieldConsistent_fromEvent he hp) hc.descriptors hc.nativeColumns hdeclare
  have hc₁ : layout.Configured item₁.countEvent.config := hredesc.configured hc
  simp only [EStateM.run_bind, EStateM.run_modify] at hrun
  split_ifs at hrun with hmarker
  · cases hrun
  have hkeyless : item₁.countEvent.keyless = false := hc₁.keyless
  simp only [EStateM.run_bind, EStateM.run_get, hkeyless, Bool.false_eq_true, if_false] at hrun
  -- the fold key
  unfold collectKeyed at hrun
  rw [run_bind_eq_ok] at hrun
  obtain ⟨key, item₂, hkeyrun, hrun⟩ := hrun
  have hid₁ : item₁.countEvent.identified = true := by
    have hid' : item₁.identified = true := by
      rw [hredesc.eq]
      exact hid
    exact hid'
  have hsame₁ : SameRows item item₁.countEvent :=
    (hsame.trans (.of_redescribes hredesc)).trans ⟨rfl, rfl, rfl, rfl, rfl, rfl, rfl⟩
  have hready {op : Op} {r : Row C V} (he : layout.RowEvent op r e) :=
    ready_of_key hsame₁ hc₁ hid₁
      (fun c hcol => hredesc.keepsNative c (by rw [hnative]; exact hcol)) he hkeyrun
  -- the operation
  cases hrender with
  | truncate ht _ => exact absurd ht hkind
  | insert he' hafter =>
    obtain ⟨rfl, hready, hkeeps⟩ := hready he'
    simp only [he'.incremental, he'.op, Bool.false_eq_true, if_false, EStateM.run_bind,
      EStateM.run_modify, Option.some.injEq, reduceCtorEq] at hrun
    exact ⟨_, _, hready, hrun, ⟨.refl _, rfl⟩, fun p hp hbound => hkeeps _ (hbinds p hp hbound)⟩
  | @update old new _ he' hbefore hafter =>
    obtain ⟨rfl, hready, hkeeps⟩ := hready he'
    simp only [he'.incremental, he'.op, Bool.false_eq_true, if_false, EStateM.run_bind,
      EStateM.run_modify, Option.some.injEq, reduceCtorEq, if_true] at hrun
    obtain ⟨item₃, hready₃, hoperation, hkeeps₃⟩ :=
      collectUpdate_operation he' hready hbefore.2 (hkey old new rfl) hrun
    exact ⟨item₃, item', hready₃, hoperation, ⟨.refl _, rfl⟩,
      fun p hp hbound => hkeeps₃ _ (hkeeps _ (hbinds p hp hbound))⟩
  | @delete old _ he' hbefore hshow =>
    obtain ⟨rfl, hready, hkeeps⟩ := hready he'
    simp only [he'.incremental, he'.op, Bool.false_eq_true, if_false, EStateM.run_bind,
      EStateM.run_modify, if_true] at hrun
    obtain ⟨item₃, item₄, hready₃, hoperation, hsettles, hkeeps₃⟩ :=
      collectDelete_operation he' hready hshow hrun
    exact ⟨item₃, item₄, hready₃, hoperation, hsettles,
      fun p hp hbound => hkeeps₃ _ (hkeeps _ (hbinds p hp hbound))⟩

/-- The operation of a delete that does not raise: neither does its record. -/
theorem collectDelete_operation_total (he : layout.RowEvent .delete old e)
    (hd : layout.Described e) (h : layout.Ready item item₁)
    (hknown : ∀ c ∈ layout.keyColumns, (item₁.descriptors.get? c).isSome)
    (hshow : ∀ c ∈ layout.keyColumns, layout.Shows e.before e.typedBefore c (old c))
    (hop : ∀ item₂, layout.Ready item item₂ →
      ∃ item₃, (operation layout probe e q (.delete old)).run item₂ = .ok () item₃) :
    ∃ item', (collectDelete probe e eventId).run item₁ = .ok () item' := by
  obtain ⟨key, item₂, hkey⟩ := beforeKey_total he hd h.configured h.keyColumns hknown
  obtain ⟨rfl, hredesc⟩ := beforeKey_ok he h.configured h.keyColumns hshow hkey
  obtain ⟨item₃, hrun⟩ := hop item₂ (h.redescribes hredesc)
  rw [operation, run_bind_eq_ok] at hrun
  obtain ⟨removed, item₄, hremove, -⟩ := hrun
  unfold collectDelete
  rw [run_bind_of_ok hkey, run_bind_of_ok hremove]
  exact ⟨_, rfl⟩

/-- The operation of an update that does not raise: neither does its record. -/
theorem collectUpdate_operation_total (he : layout.RowEvent .update new e)
    (hd : layout.Described e) (h : layout.Ready item item₁)
    (hknown : ∀ c ∈ layout.keyColumns, (item₁.descriptors.get? c).isSome)
    (hshow : ∀ c ∈ layout.keyColumns,
      layout.Shows e.before e.typedBefore c (old c) ∨ (e.before.getD ∅).get? c = none)
    (hkey : layout.token new = layout.token old)
    (hop : ∀ item₂, layout.Ready item item₂ →
      ∃ item₃, (operation layout probe e q (.update old new)).run item₂ = .ok () item₃) :
    ∃ item', (collectUpdate probe e (layout.token new) q).run item₁ = .ok () item' := by
  rw [hkey]
  obtain ⟨k, hk, hkcols, -⟩ := he.key
  unfold collectUpdate
  simp only [hk]
  split_ifs with hempty hall
  · exact hop item₁ h
  · have hshow' : ∀ c ∈ layout.keyColumns, layout.Shows e.before e.typedBefore c (old c) := by
      intro c hcol
      rcases hshow c hcol with hs | hnone
      · exact hs
      · have hin := List.all_eq_true.1 hall c (hkcols ▸ hcol)
        simp [Dict.contains, hnone] at hin
    obtain ⟨key, item₂, hkeyrun⟩ := beforeKey_total he hd h.configured h.keyColumns hknown
    obtain ⟨rfl, hredesc⟩ := beforeKey_ok he h.configured h.keyColumns hshow' hkeyrun
    obtain ⟨item', hrun⟩ := hop item₂ (h.redescribes hredesc)
    refine ⟨item', ?_⟩
    rw [run_bind_of_ok hkeyrun, if_pos rfl]
    exact hrun
  · exact hop item₁ h

/-- A described row event raises only where its operation does. -/
theorem foldEvent_operation_total (commitId : ℕ) (eventId : String) (h : layout.Simulates D item S)
    (hrender : layout.Renders event e) (hkind : e.kind ≠ .truncate) (hd : layout.Described e)
    (hkey : ∀ old new, event = .update old new → layout.token new = layout.token old)
    (hop : ∀ item₁, layout.Ready item item₁ → ∃ item₂,
      (operation layout probe e (RowPatch.fromEvent e commitId eventId false) event).run item₁ =
        .ok () item₂) :
    ∃ item', (foldEvent probe commitId (e, eventId)).run item = .ok () item' := by
  have hmode : e.deleteMode ≠ some .soft := by
    cases hrender with
    | insert he _ => exact he.deleteMode
    | update he _ _ => exact he.deleteMode
    | delete he _ _ => exact he.deleteMode
    | truncate _ hm => exact hm
  have hobs : (observe e none).run item = .ok () ((item.recordSource e).identify e) := by
    have hhard : item.deleteMode = .hard := h.configured.deleteMode
    unfold observe
    simp only [EStateM.run_bind, EStateM.run_get]
    rw [if_neg]
    · rfl
    · cases hm : e.deleteMode with
      | none => simp
      | some m =>
        cases m with
        | hard => simp [hhard]
        | soft => exact absurd hm hmode
  obtain ⟨r, op, he⟩ := hrender.rowEvent hkind
  obtain ⟨-, hc, hid, -, -, hnative⟩ := observed_row h he
  have hsame : SameRows item ((item.recordSource e).identify e) := by
    unfold TableWork.identify TableWork.recordSource
    split_ifs <;> exact ⟨rfl, rfl, rfl, rfl, rfl, rfl, rfl⟩
  obtain ⟨item₁, hdeclare⟩ := declare_total ((item.recordSource e).identify e) commitId
    eventId he hd
  obtain ⟨hredesc, -⟩ := declareFields_ok (consistent_descriptors he) _
    (fun p hp => fieldConsistent_fromEvent he hp) hc.descriptors hc.nativeColumns hdeclare
  have hc₁ : layout.Configured item₁.countEvent.config := hredesc.configured hc
  have hid₁ : item₁.countEvent.identified = true := by
    have hid' : item₁.identified = true := by
      rw [hredesc.eq]
      exact hid
    exact hid'
  have hsame₁ : SameRows item item₁.countEvent :=
    (hsame.trans (.of_redescribes hredesc)).trans ⟨rfl, rfl, rfl, rfl, rfl, rfl, rfl⟩
  have hkeys₁ : item₁.countEvent.keyColumns = layout.keyColumns := hc₁.keyColumns hid₁
  have hkeyless : item₁.countEvent.keyless = false := hc₁.keyless
  have hmarker : ((RowPatch.fromEvent e commitId eventId false).hasMarker &&
      (e.op = some .create || e.op = some .read)) = false := by
    cases hrender with
    | insert he hafter => simp [hasMarker_fromEvent_insert he hafter]
    | update he _ _ => simp [he.op]
    | delete he _ _ => simp [he.op]
    | truncate ht _ => exact absurd ht hkind
  obtain ⟨key, item₂, hkeyrun⟩ := collectKey_total he hd hc₁ hkeys₁
  have hknown := (collectKey_ok he hc₁ hkeys₁ hkeyrun).2.2
  have hready {op : Op} {r : Row C V} (he : layout.RowEvent op r e) :=
    ready_of_key hsame₁ hc₁ hid₁
      (fun c hcol => hredesc.keepsNative c (by rw [hnative]; exact hcol)) he hkeyrun
  unfold foldEvent
  rw [run_bind_of_ok hobs]
  dsimp only
  rw [if_neg hkind]
  simp only [EStateM.run_bind, EStateM.run_get]
  rw [show ((item.recordSource e).identify e).snapshot = false from hc.snapshot]
  unfold collect
  rw [if_neg hkind, run_bind_of_ok hdeclare]
  simp only [EStateM.run_bind, EStateM.run_modify, hmarker, Bool.false_eq_true, if_false,
    EStateM.run_get, hkeyless]
  unfold collectKeyed
  rw [run_bind_of_ok hkeyrun]
  cases hrender with
  | truncate ht _ => exact absurd ht hkind
  | insert he' hafter =>
    simp only [he'.incremental, he'.op, Bool.false_eq_true, if_false, EStateM.run_bind,
      EStateM.run_modify, Option.some.injEq, reduceCtorEq]
    exact ⟨_, rfl⟩
  | @update old new _ he' hbefore hafter =>
    obtain ⟨rfl, hready, -⟩ := hready he'
    simp only [he'.incremental, he'.op, Bool.false_eq_true, if_false, EStateM.run_bind,
      EStateM.run_modify, Option.some.injEq, reduceCtorEq, if_true]
    exact collectUpdate_operation_total he' hd hready (fun c hcol => (hknown c hcol).1) hbefore.2
      (hkey old new rfl) hop
  | @delete old _ he' hbefore hshow =>
    obtain ⟨rfl, hready, -⟩ := hready he'
    simp only [he'.incremental, he'.op, Bool.false_eq_true, if_false, EStateM.run_bind,
      EStateM.run_modify, if_true]
    exact collectDelete_operation_total he' hd hready (fun c hcol => (hknown c hcol).1) hshow hop

omit [ColumnValue V] [ToString C] in
/-- **The simulation relation after a record**, from what its operation did to the rows. The first
record of a table without rows declares every column. -/
theorem Simulates.of_operation (h : layout.Simulates D item S) (hready : layout.Ready item item₁)
    (hrep : layout.Represents D item₂ S') (hconfig : item₂.config = item₁.config)
    (hsettles : Settles item₂ item') (hfits : ∀ r ∈ S', layout.Fits r)
    (hfirst : item.identified = false → D = 0 →
      ∀ c ∈ layout.columns, (item₁.nativeColumns.get? c).isSome) :
    layout.Simulates D item' S' := by
  have hconfig' : item'.config = item₁.config := hsettles.config.trans hconfig
  have hid : item'.identified = true :=
    (congrArg FoldConfig.identified hconfig').trans hready.identified
  have hnative : item'.nativeColumns = item₁.nativeColumns :=
    congrArg FoldConfig.nativeColumns hconfig'
  refine ⟨hsettles.same.represents hrep, ?_, hfits, fun hf => ?_, fun _ c hc => ?_,
    fun _ hD c hc => ?_⟩
  · rw [hconfig']
    exact hready.configured
  · rw [hid] at hf
    cases hf
  · rw [hnative]
    exact hready.declared c hc
  · rw [hnative]
    by_cases hold : item.identified = true
    · exact hready.keepsNative c (h.whole hold hD c hc)
    · exact hfirst (by simpa using hold) hD c hc

end Layout

end CdcFlight
