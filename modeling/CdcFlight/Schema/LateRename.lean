import CdcFlight.Destination.Writer
import CdcFlight.Schema.Identity

/-!
# The merge of a late rename

Between a rename at the source and its application at the destination the planner writes rows whose
images carry the column under its old name and rows whose images carry it under its new name, so
that the table has both columns. `rename_column` then merges the two by the presence journal, which
the planner writes for sparse images only, and for every column the image names.

A row is what the planner's statements made of it: an insertion of a folded image, sparse updates,
and the update that revives a soft-deleted row.

## Main definitions

* `CdcFlight.RowWrite`, `CdcFlight.RowStatement`: the events of a row and the statements they are
  folded into.
* `CdcFlight.RowWrite.presence`: the journal rows of an event.
* `CdcFlight.LateRename`: a table with both columns, its rows and its journal.
* `CdcFlight.Recoverable`: the rows that the merge gets right.

## Main results

* `CdcFlight.values_written`, `CdcFlight.eventId_written`: a row is its events since its insertion,
  applied in order, under the id of the last one.
* `CdcFlight.renameColumn_recovers_iff`: what the merge leaves is the source's value exactly in the
  recoverable rows.
* `CdcFlight.recoverable_insert`: of an insertion under the new name only a NULL is recovered.
-/

namespace CdcFlight

open Lib

variable {C V : Type} [DecidableEq C] [ColumnValue V]

/-! ### Events and statements -/

/-- An event as the planner folds it into the row of its key. -/
structure RowWrite (C V : Type) where
  event : PendingRecord C V
  eventId : String
  commitId : ℕ
  snapshot : Bool := false

namespace RowWrite

variable (w : RowWrite C V)

/-- `table_work.patch_for`. -/
def patch : RowPatch C V := RowPatch.fromEvent w.event w.commitId w.eventId w.snapshot

omit [DecidableEq C] [ColumnValue V] in
/-- `event.after if event.op != "d" else event.before`. -/
def image : Option (Image C V) :=
  if w.event.op ≠ some .delete then w.event.after else w.event.before

/-- The image has a column of this name. -/
def names (c : C) : Bool := (w.image.getD ∅).contains c

/-- The value or NULL that the image binds to a column. -/
def carried (c : C) : Option (Option V) := w.patch.bindableValues.get? c

/-- The `column_presence` rows of an event: a sparse image, every column it names. -/
def presence : List (String × C) :=
  if w.patch.complete then [] else (w.image.getD ∅).keys.map fun c => (w.eventId, c)

end RowWrite

/-- A statement that the planner writes for a row, with the events folded into it. -/
inductive RowStatement (C V : Type)
  | insert (first : RowWrite C V) (rest : List (RowWrite C V))
  | update (first : RowWrite C V) (rest : List (RowWrite C V))
  | revive (first : RowWrite C V) (rest : List (RowWrite C V))

/-- The patch a fold makes of the events of one row. -/
def composed (first : RowWrite C V) (rest : List (RowWrite C V)) : RowPatch C V :=
  rest.foldl (fun p w => p.compose w.patch) first.patch

namespace RowStatement

/-- The row after a statement. -/
def run (r : DestRow C V) : RowStatement C V → DestRow C V
  | insert first rest => (composed first rest).newRow.toRow
  | update first rest => (composed first rest).assignment.assignTo r
  | revive first rest => (composed first rest).revival.assignTo r

/-- The events of a statement. -/
def writes : RowStatement C V → List (RowWrite C V)
  | insert first rest => first :: rest
  | update first rest => first :: rest
  | revive first rest => first :: rest

end RowStatement

/-- The row that the statements leave. -/
def written (history : List (RowStatement C V)) : DestRow C V :=
  history.foldl RowStatement.run ⟨fun _ => none, {}⟩

/-- The events of a history since its last insertion. -/
def sinceInsert (history : List (RowStatement C V)) : List (RowWrite C V) :=
  history.foldl (fun l statement => match statement with
    | .insert first rest => first :: rest
    | .update first rest => l ++ first :: rest
    | .revive first rest => l ++ first :: rest) []

/-! ### What a row holds -/

theorem apply_composed (first : RowWrite C V) (rest : List (RowWrite C V)) (r : Row C V) :
    (composed first rest).apply r = (first :: rest).foldl (fun r w => w.patch.apply r) r := by
  induction rest using List.reverseRecOn with
  | nil => rfl
  | append_singleton rest w ih =>
    rw [composed, List.foldl_append, List.foldl_cons, List.foldl_nil, ← composed,
      RowPatch.apply_compose, ih, ← List.cons_append, List.foldl_append]
    rfl

theorem eventId_composed (first : RowWrite C V) (rest : List (RowWrite C V)) :
    ((composed first rest).rowMeta.getD {}).eventId = (first :: rest).getLast?.map (·.eventId) := by
  obtain rfl | ⟨rest, w, rfl⟩ := List.eq_nil_or_concat' rest
  · rfl
  · rw [composed, List.foldl_append, List.foldl_cons, List.foldl_nil, ← List.cons_append,
      List.getLast?_append_cons]
    rfl

theorem values_run (statement : RowStatement C V) (r : DestRow C V) :
    (statement.run r).values = statement.writes.foldl (fun r w => w.patch.apply r)
      (match statement with
        | .insert _ _ => fun _ => none
        | _ => r.values) := by
  cases statement with
  | insert first rest =>
    rw [RowStatement.writes, ← apply_composed]
    funext c
    simp only [RowStatement.run, NewRow.toRow, RowPatch.newRow, RowPatch.apply]
    cases (composed first rest).bindableValues.get? c <;> rfl
  | update first rest =>
    rw [RowStatement.writes, ← apply_composed]
    rfl
  | revive first rest =>
    rw [RowStatement.writes, ← apply_composed]
    rfl

/-- The row is its events since the insertion, applied in order. -/
theorem values_written (history : List (RowStatement C V)) :
    (written history).values =
      (sinceInsert history).foldl (fun r w => w.patch.apply r) fun _ => none := by
  induction history using List.reverseRecOn with
  | nil => rfl
  | append_singleton history statement ih =>
    rw [written, sinceInsert, List.foldl_append, List.foldl_append, List.foldl_cons,
      List.foldl_cons,
      List.foldl_nil, List.foldl_nil, ← written, ← sinceInsert, values_run]
    cases statement with
    | insert first rest => rfl
    | update first rest => rw [List.foldl_append, ih]; rfl
    | revive first rest => rw [List.foldl_append, ih]; rfl

/-- The row bears the id of its last event. -/
theorem eventId_written (history : List (RowStatement C V)) :
    (written history).rowMeta.eventId = (sinceInsert history).getLast?.map (·.eventId) := by
  obtain rfl | ⟨history, statement, rfl⟩ := List.eq_nil_or_concat' history
  · rfl
  · rw [written, sinceInsert, List.foldl_append, List.foldl_append, List.foldl_cons,
      List.foldl_cons, List.foldl_nil, List.foldl_nil, ← written, ← sinceInsert]
    cases statement with
    | insert first rest => exact eventId_composed first rest
    | update first rest =>
      dsimp only
      rw [List.getLast?_append_cons]
      exact eventId_composed first rest
    | revive first rest =>
      dsimp only
      rw [List.getLast?_append_cons]
      exact eventId_composed first rest

/-! ### What the source holds -/

section Renamed

variable (old new : C)

/-- The name under which an image carries the renamed column. -/
def RowWrite.columnName (w : RowWrite C V) : C := if w.names new then new else old

/-- The source's value after the events: the last one carried, under the name of its time. A column
that an image hides is unchanged. -/
def sourceValue (l : List (RowWrite C V)) : Option V :=
  l.foldl (fun x w => (w.carried (w.columnName old new)).getD x) none

/-- The last value or NULL that the events carry under a name. -/
def lastCarried (c : C) (l : List (RowWrite C V)) : Option (Option V) :=
  l.foldl (fun x w => (w.carried c).or x) none

/-- Images around a rename: each has the column under one of the names, and none has the old name
after one that has the new name. -/
structure Renamed (l : List (RowWrite C V)) : Prop where
  named : ∀ w ∈ l, (w.names old = true ∧ w.names new = false ∧ w.carried new = none) ∨
    (w.names new = true ∧ w.names old = false ∧ w.carried old = none)
  order : l.Pairwise fun w w' => w.names new = true → w'.names new = true

/-- A history of statements around a rename: it starts with an insertion, and the image of an
insertion or a revival carries the column. -/
structure LegalWrites (history : List (RowStatement C V)) : Prop where
  renamed : Renamed old new (history.flatMap RowStatement.writes)
  inserted : ∃ first rest tail, history = .insert first rest :: tail
  carries : ∀ statement ∈ history, ∀ first rest,
    statement = .insert first rest ∨ statement = .revive first rest →
    (first.carried (first.columnName old new)).isSome

variable {old new}

/-- The content of a column is what the events last carried under its name. -/
theorem foldl_apply_eq (l : List (RowWrite C V)) (c : C) :
    (l.foldl (fun r w => w.patch.apply r) fun _ => none) c = (lastCarried c l).join := by
  induction l using List.reverseRecOn with
  | nil => rfl
  | append_singleton l w ih =>
    rw [lastCarried, List.foldl_append, List.foldl_append, List.foldl_cons, List.foldl_cons,
      List.foldl_nil, List.foldl_nil, ← lastCarried]
    rw [RowPatch.apply, ih, RowWrite.carried]
    cases w.patch.bindableValues.get? c <;> rfl

theorem lastCarried_append_singleton (c : C) (l : List (RowWrite C V)) (w : RowWrite C V) :
    lastCarried c (l ++ [w]) = (w.carried c).or (lastCarried c l) := by
  rw [lastCarried, List.foldl_append]
  rfl

theorem sourceValue_append_singleton (l : List (RowWrite C V)) (w : RowWrite C V) :
    sourceValue old new (l ++ [w]) =
      (w.carried (w.columnName old new)).getD (sourceValue old new l) := by
  rw [sourceValue, List.foldl_append]
  rfl

/-- Something is carried under a name exactly when some event carries it. -/
theorem isSome_lastCarried_iff (c : C) (l : List (RowWrite C V)) :
    (lastCarried c l).isSome ↔ ∃ w ∈ l, (w.carried c).isSome := by
  induction l using List.reverseRecOn with
  | nil => simp [lastCarried]
  | append_singleton l w ih =>
    rw [lastCarried_append_singleton, Option.isSome_or, Bool.or_eq_true, ih]
    simp only [List.mem_append, List.mem_singleton]
    constructor
    · rintro (h | ⟨w', hw', h⟩)
      · exact ⟨w, Or.inr rfl, h⟩
      · exact ⟨w', Or.inl hw', h⟩
    · rintro ⟨w', hw' | rfl, h⟩
      · exact Or.inr ⟨w', hw', h⟩
      · exact Or.inl h

theorem Renamed.of_append {l m : List (RowWrite C V)} (h : Renamed old new (l ++ m)) :
    Renamed old new l ∧ Renamed old new m :=
  ⟨⟨fun w hw => h.named w (List.mem_append_left _ hw), (List.pairwise_append.1 h.order).1⟩,
    ⟨fun w hw => h.named w (List.mem_append_right _ hw), (List.pairwise_append.1 h.order).2.1⟩⟩

/-- Nothing is carried under the new name up to an image under the old one. -/
theorem Renamed.lastCarried_eq_none {l : List (RowWrite C V)} {w : RowWrite C V}
    (h : Renamed old new (l ++ [w])) (hw : w.names new = false) :
    lastCarried new (l ++ [w]) = none := by
  rw [← Option.not_isSome_iff_eq_none, isSome_lastCarried_iff]
  rintro ⟨w', hw', hcarried⟩
  have hnames : w'.names new = true := by
    rcases h.named w' hw' with ⟨-, -, hnone⟩ | ⟨hnew, -⟩
    · simp [hnone] at hcarried
    · exact hnew
  rcases List.mem_append.1 hw' with hmem | hmem
  · have hafter := (List.pairwise_append.1 h.order).2.2 w' hmem w (List.mem_singleton_self _) hnames
    simp [hw] at hafter
  · rw [List.mem_singleton.1 hmem, hw] at hnames
    cases hnames

/-- **The source's value, from the columns**: what was last carried under the new name, and before
that under the old name. -/
theorem sourceValue_eq {l : List (RowWrite C V)} (h : Renamed old new l) :
    sourceValue old new l = ((lastCarried new l).or (lastCarried old l)).join := by
  induction l using List.reverseRecOn with
  | nil => rfl
  | append_singleton l w ih =>
    rw [sourceValue_append_singleton, lastCarried_append_singleton, lastCarried_append_singleton,
      ih h.of_append.1]
    rcases h.named w (by simp) with ⟨hold, hnew, hnone⟩ | ⟨hnew, hold, hnone⟩
    · -- An image under the old name: no image before it had the new one.
      have hbefore : lastCarried new l = none := by
        have hall := h.lastCarried_eq_none hnew
        rwa [lastCarried_append_singleton, hnone, Option.none_or] at hall
      rw [RowWrite.columnName, if_neg (by simp [hnew]), hnone, hbefore]
      cases w.carried old <;> simp
    · rw [RowWrite.columnName, if_pos hnew, hnone]
      cases w.carried new <;> simp

/-- The events before the last insertion leave no trace in the source's value. -/
theorem sourceValue_sinceInsert {history : List (RowStatement C V)}
    (h : ∀ statement ∈ history, ∀ first rest,
      statement = .insert first rest ∨ statement = .revive first rest →
      (first.carried (first.columnName old new)).isSome) :
    sourceValue old new (sinceInsert history) =
      sourceValue old new (history.flatMap RowStatement.writes) := by
  induction history using List.reverseRecOn with
  | nil => rfl
  | append_singleton history statement ih =>
    have ih := ih fun statement' hstatement => h statement' (List.mem_append_left _ hstatement)
    have happend : sourceValue old new ((history ++ [statement]).flatMap RowStatement.writes) =
        statement.writes.foldl (fun x w => (w.carried (w.columnName old new)).getD x)
          (sourceValue old new (history.flatMap RowStatement.writes)) := by
      rw [List.flatMap_append, List.flatMap_singleton, sourceValue, List.foldl_append]
      rfl
    rw [happend, ← ih, sinceInsert, List.foldl_append, List.foldl_cons, List.foldl_nil,
      ← sinceInsert]
    cases statement with
    | insert first rest =>
      have hfirst := h (.insert first rest) (by simp) first rest (Or.inl rfl)
      obtain ⟨x, hx⟩ := Option.isSome_iff_exists.1 hfirst
      simp only [RowStatement.writes, sourceValue, List.foldl_cons, hx, Option.getD_some]
    | update first rest => rw [sourceValue, List.foldl_append]; rfl
    | revive first rest => rw [sourceValue, List.foldl_append]; rfl

omit [DecidableEq C] [ColumnValue V] in
/-- The events since the last insertion are the last ones. -/
theorem sinceInsert_suffix (history : List (RowStatement C V)) :
    sinceInsert history <:+ history.flatMap RowStatement.writes := by
  induction history using List.reverseRecOn with
  | nil => exact List.suffix_refl _
  | append_singleton history statement ih =>
    obtain ⟨l, hl⟩ := ih
    rw [sinceInsert, List.foldl_append, List.foldl_cons, List.foldl_nil, ← sinceInsert,
      List.flatMap_append, List.flatMap_singleton]
    cases statement with
    | insert first rest => exact List.suffix_append _ _
    | update first rest => exact ⟨l, by rw [← List.append_assoc, hl]; rfl⟩
    | revive first rest => exact ⟨l, by rw [← List.append_assoc, hl]; rfl⟩

omit [DecidableEq C] [ColumnValue V] in
theorem sinceInsert_ne_nil {history : List (RowStatement C V)} (h : history ≠ []) :
    sinceInsert history ≠ [] := by
  obtain ⟨l, statement, rfl⟩ : ∃ l statement, history = l ++ [statement] :=
    ⟨_, _, (List.dropLast_append_getLast h).symm⟩
  rw [sinceInsert, List.foldl_append, List.foldl_cons, List.foldl_nil]
  cases statement <;> simp

end Renamed

/-! ### The merge -/

section Merge

variable [DecidableEq V] [ToString C] (old new : C)

/-- A table with both columns, and the journal of the events written to it. -/
structure LateRename (s : Registered C V) (journal : List (RowWrite C V)) : Prop where
  ne : old ≠ new
  present : s.table.present = true
  hasEventId : s.hasEventId = true
  old_mem : old ∈ s.table.columns
  new_mem : new ∈ s.table.columns
  presence : ∀ p, p ∈ s.presence ↔ ∃ w ∈ journal, p ∈ w.presence
  distinct : (journal.map (·.eventId)).Nodup

/-- **The rows the merge gets right**, by their events since the last insertion. A row whose last
image has the old name is one. A row whose last image is a complete one under the new name is one if
its value is what the row holds under the old name, which is NULL unless a soft-deleted row was
revived. A row last written by a sparse image under the new name is one if some image since the
insertion carried the column under the new name, or if its value is NULL. -/
def Recoverable (l : List (RowWrite C V)) : Prop :=
  ∀ w ∈ l.getLast?, w.names new = true →
    if w.patch.complete then sourceValue old new l = (lastCarried old l).join
    else (∃ w' ∈ l, (w'.carried new).isSome) ∨ sourceValue old new l = none

variable {old new} {s s' : Registered C V} {journal : List (RowWrite C V)}
  {history : List (RowStatement C V)}

omit [DecidableEq V] [ToString C] in
/-- An insertion under the new name is merged right only if its value is NULL. -/
theorem recoverable_insert {w : RowWrite C V} (hlegal : Renamed old new [w])
    (hnames : w.names new = true) (hcomplete : w.patch.complete = true) :
    Recoverable old new [w] ↔ sourceValue old new [w] = none := by
  have hold : lastCarried old [w] = none := by
    rcases hlegal.named w (List.mem_singleton_self _) with ⟨-, hnot, -⟩ | ⟨-, -, hnone⟩
    · simp [hnames] at hnot
    · simpa [lastCarried] using hnone
  simp [Recoverable, hnames, hcomplete, hold]

omit [ToString C] [DecidableEq V] in
/-- The journal has a row of the table under the new name when its last event is a sparse image
under that name. -/
theorem LateRename.isPresent_iff (h : LateRename old new s journal) {w : RowWrite C V}
    (hw : w ∈ journal) {r : DestRow C V} (hid : r.rowMeta.eventId = some w.eventId) :
    s.isPresent new r = true ↔ w.patch.complete = false ∧ w.names new = true := by
  have hpresent : s.isPresent new r = true ↔ (w.eventId, new) ∈ s.presence := by
    simp [Registered.isPresent, hid]
  rw [hpresent, h.presence]
  constructor
  · rintro ⟨w', hw', hin⟩
    rw [RowWrite.presence] at hin
    split_ifs at hin with hcomplete
    · simp at hin
    · obtain ⟨c, hc, heq⟩ := List.mem_map.1 hin
      rw [Prod.mk.injEq] at heq
      obtain rfl : w' = w := List.inj_on_of_nodup_map h.distinct hw' hw heq.1
      exact ⟨by simpa using hcomplete, by
        rw [RowWrite.names, Dict.contains_eq_true_iff]
        exact heq.2 ▸ hc⟩
  · rintro ⟨hcomplete, hnames⟩
    refine ⟨w, hw, ?_⟩
    rw [RowWrite.presence, if_neg (by simp [hcomplete])]
    rw [RowWrite.names, Dict.contains_eq_true_iff] at hnames
    exact List.mem_map_of_mem hnames

omit [DecidableEq V] [ToString C] in
/-- **The merged value is the source's exactly in the recoverable rows.** -/
theorem LateRename.mergedValue_eq_iff (h : LateRename old new s journal)
    (hlegal : LegalWrites old new history)
    (hjournal : ∀ w ∈ history.flatMap RowStatement.writes, w ∈ journal) :
    s.mergedValue old new (written history) =
        sourceValue old new (history.flatMap RowStatement.writes) ↔
      Recoverable old new (sinceInsert history) := by
  have hsuffix := sinceInsert_suffix history
  have hrenamed : Renamed old new (sinceInsert history) := by
    obtain ⟨l, hl⟩ := hsuffix
    have hall := hlegal.renamed
    rw [← hl] at hall
    exact hall.of_append.2
  have hvalue (c : C) :
      (written history).values c = (lastCarried c (sinceInsert history)).join := by
    rw [values_written, foldl_apply_eq]
  have hid := eventId_written history
  rw [← sourceValue_sinceInsert hlegal.carries, Registered.mergedValue, if_pos h.hasEventId, hvalue,
    hvalue]
  have hne : sinceInsert history ≠ [] := by
    obtain ⟨first, rest, tail, rfl⟩ := hlegal.inserted
    exact sinceInsert_ne_nil (List.cons_ne_nil _ _)
  -- The last event decides what the journal says.
  obtain ⟨l, w, hl⟩ : ∃ l w, sinceInsert history = l ++ [w] :=
    ⟨_, _, (List.dropLast_append_getLast hne).symm⟩
  rw [hl] at hid hrenamed hsuffix ⊢
  rw [List.getLast?_concat, Option.map_some] at hid
  have hw : w ∈ journal := hjournal w (hsuffix.subset (by simp))
  have hpresent := h.isPresent_iff hw hid
  have hsource := sourceValue_eq hrenamed
  rw [Recoverable, List.getLast?_concat]
  simp only [Option.mem_some_iff, forall_eq']
  by_cases hnames : w.names new = true
  · by_cases hcomplete : w.patch.complete = true
    · rw [if_neg (by simp [hpresent, hcomplete])]
      simp only [hnames, hcomplete, forall_const, if_true]
      exact eq_comm
    · rw [if_pos (hpresent.2 ⟨by simpa using hcomplete, hnames⟩)]
      simp only [hnames, hcomplete, forall_const, Bool.false_eq_true, if_false]
      rw [← isSome_lastCarried_iff]
      rcases hcarried : lastCarried new (l ++ [w]) with _ | x
      · rw [Option.isSome_none, Option.join_none]
        simp [eq_comm]
      · simp [hsource, hcarried]
  · rw [if_neg fun hin => hnames (hpresent.1 hin).2]
    rw [hsource, hrenamed.lastCarried_eq_none (by simpa using hnames), Option.none_or]
    simp [hnames]

omit [ToString C] in
/-- **The merge of a late rename is right exactly for the recoverable rows**: for every table with
both columns and every row that the planner wrote from images under the two names. -/
theorem renameColumn_recovers_iff (h : LateRename old new s journal)
    (hrun : s.renameColumn old new = .ok s') {i : ℕ}
    (hrow : s.table.rows[i]? = some (written history)) (hlegal : LegalWrites old new history)
    (hjournal : ∀ w ∈ history.flatMap RowStatement.writes, w ∈ journal) :
    (∃ r, s'.table.rows[i]? = some r ∧
      r.values new = sourceValue old new (history.flatMap RowStatement.writes)) ↔
      Recoverable old new (sinceInsert history) := by
  rw [← h.mergedValue_eq_iff hlegal hjournal]
  have hmerged : (s'.table.rows[i]?).map (·.values new) =
      some (s.mergedValue old new (written history)) := by
    rcases Registered.renameColumn_cases hrun with ⟨hsame | hpresent, -⟩ | ⟨-, -, hout, -⟩ |
      ⟨-, -, -, rfl⟩ | ⟨hout, -⟩
    · exact absurd hsame h.ne
    · simp [h.present] at hpresent
    · exact absurd h.new_mem hout
    · rw [Registered.renameKeys, Registered.rows_clearPresence]
      simp [Registered.alterDrop, Registered.mergeColumns, hrow, h.ne.symm]
    · exact absurd h.old_mem hout
  constructor
  · rintro ⟨r, hr, hvalue⟩
    rw [hr, Option.map_some, Option.some.injEq] at hmerged
    rw [← hmerged, hvalue]
  · intro hvalue
    obtain ⟨r, hr, hnew⟩ := Option.map_eq_some_iff.1 hmerged
    exact ⟨r, hr, hnew.trans hvalue⟩

end Merge

/-! ### Accounts whose `note` becomes `body` -/

namespace Accounts

/-- An event of the table while the column has the given name. -/
def around (name : Column) (h : [Column.id, name].Nodup) (op : Op) (eventId value : String) :
    RowWrite Column String where
  event :=
    { kind := .data, op := some op
      after := some (Dict.tabulate [.id, name] h fun c =>
        if c = .id then some "1" else some value) }
  eventId := eventId
  commitId := 7

/-- Inserted before the rename. -/
def insertedBefore : RowWrite Column String := around .note sparse.after_nodup .create "1" "a"

/-- Updated after the rename. -/
def updatedAfter : RowWrite Column String := around .body (by decide) .update "2" "b"

/-- Inserted after the rename. -/
def insertedAfter : RowWrite Column String := around .body (by decide) .create "2" "b"

/-- The table with both columns and one row, with the journal of the row's events. -/
def bothColumns (history : List (RowStatement Column String)) : Registered Column String where
  table :=
    { name := "accounts", columns := [.id, .note, .body], keyColumns := [.id]
      rows := [written history] }
  presence := (history.flatMap RowStatement.writes).flatMap RowWrite.presence

theorem lateRename_bothColumns {history : List (RowStatement Column String)}
    (h : ((history.flatMap RowStatement.writes).map (·.eventId)).Nodup) :
    LateRename .note .body (bothColumns history) (history.flatMap RowStatement.writes) where
  ne := by decide
  present := rfl
  hasEventId := rfl
  old_mem := by simp [bothColumns]
  new_mem := by simp [bothColumns]
  presence _ := List.mem_flatMap
  distinct := h

theorem legalWrites_insertedAfter : LegalWrites Column.note .body [.insert insertedAfter []] where
  renamed := ⟨by decide, by decide⟩
  inserted := ⟨_, _, _, rfl⟩
  carries := by
    rintro statement hmem first rest (rfl | rfl) <;> simp at hmem
    rw [hmem.1]
    decide

/-- **An insertion under the new name is overwritten**: no journal row says that it carried the
column. -/
theorem insertedAfter_lost : LateRename .note .body (bothColumns [.insert insertedAfter []])
      [insertedAfter] ∧ LegalWrites Column.note .body [.insert insertedAfter []] ∧
    ∃ s', (bothColumns [.insert insertedAfter []]).renameColumn .note .body = .ok s' ∧
      s'.table.rows.map (·.values .body) = [none] ∧
      sourceValue Column.note .body [insertedAfter] = some "b" := by
  refine ⟨lateRename_bothColumns (by decide), legalWrites_insertedAfter, ?_⟩
  have hrun : ((bothColumns [.insert insertedAfter []]).renameColumn .note .body).map
      (fun s' => s'.table.rows.map (·.values .body)) = .ok [none] := by
    rfl
  obtain ⟨s', hs', hrows⟩ := except_map_eq_ok.1 hrun
  exact ⟨s', hs', hrows, by decide⟩

theorem legalWrites_updatedAfter :
    LegalWrites Column.note .body [.insert insertedBefore [], .update updatedAfter []] where
  renamed := ⟨by decide, by decide⟩
  inserted := ⟨_, _, _, rfl⟩
  carries := by
    rintro statement hmem first rest (rfl | rfl) <;> simp at hmem
    rw [hmem.1]
    decide

/-- An update under the new name is kept. -/
theorem updatedAfter_recovered :
    ∃ s',
      (bothColumns [.insert insertedBefore [], .update updatedAfter []]).renameColumn .note .body =
        .ok s' ∧ ∃ r, s'.table.rows[0]? = some r ∧ r.values .body = some "b" := by
  have hrun : ((bothColumns [.insert insertedBefore [], .update updatedAfter []]).renameColumn .note
      .body).map (fun s' => s'.table.columns) = .ok [.id, .body] := by
    rfl
  obtain ⟨s', hs', -⟩ := except_map_eq_ok.1 hrun
  have hsource : sourceValue Column.note .body [insertedBefore, updatedAfter] = some "b" :=
    by decide
  refine ⟨s', hs', ?_⟩
  rw [← hsource]
  refine (renameColumn_recovers_iff (lateRename_bothColumns (by decide)) hs' rfl
    legalWrites_updatedAfter fun w hw => hw).2 ?_
  intro w hw _
  obtain rfl : updatedAfter = w := Option.some.inj hw
  rw [if_neg (by decide)]
  exact Or.inl ⟨updatedAfter, by simp [sinceInsert], by decide⟩

end Accounts

end CdcFlight
