import CdcFlight.Schema.Diff
import CdcFlight.SchemaEpoch.Classify

/-!
# Units produced on one side of a schema change

A unit whose events on a table were all produced on one side of a change of its columns: inserts
and updates with all columns of the side, deletes with all columns or those of the key, truncates
without images. The classifiers should not refuse it, and should find out the side.

They read the side off the names and fingerprints of the images, change by change, and so fail
where an image says something else: where it lacks a column because it shows the key only, where a
name passes from one column to another, where a column has the type that another column had or will
have, and where there is no image at all. The fingerprints do not even come from the event:
`sanitize` puts on each field the descriptor of the watcher's newest listing, so that a row written
before the change has the new types when it is admitted after the watcher saw them. What an event
was produced with is therefore a matter of the names of its images alone, and its descriptors are
arbitrary.

## Main definitions

* `CdcFlight.SchemaFence`: the columns of a table on both sides of a change.
* `CdcFlight.ProducedOn`: the events of one side.
* `CdcFlight.EpochClassified`: what the classifiers should answer.
* `CdcFlight.RightlyRead`: the condition.

## Main results

* `CdcFlight.epochClassified_iff`: the units for which they do.
* `CdcFlight.not_epochClassified_of_confirmed`: a row written before a change of type and admitted
  after it was seen is never classified as it should be.
-/

namespace CdcFlight

open Lib

variable {C V : Type}

/-- A change of the columns of a table, with the columns of its key. -/
structure SchemaFence (normalize : String → C) where
  schema : String
  table : String
  detectedLsn : ℕ
  before : List SourceColumn
  after : List SourceColumn
  keyBefore : List SourceColumn
  keyAfter : List SourceColumn
  distinctBefore : DistinctColumns normalize before
  distinctAfter : DistinctColumns normalize after
  keyBefore_subset : keyBefore ⊆ before
  keyAfter_subset : keyAfter ⊆ after

namespace SchemaFence

variable {normalize : String → C} (fence : SchemaFence normalize)

/-- The column changes. -/
def changes : List ColumnChange := diffColumns fence.before fence.after

/-- The catalog change the watcher queues. -/
def change : CatalogChange where
  kind := .schemaChanged
  schema := fence.schema
  table := fence.table
  detectedLsn := fence.detectedLsn
  columnChanges := fence.changes

/-- The action of the catalog plan. -/
def actions : List CatalogAction := [{ change := fence.change }]

/-- The columns of a side. -/
def columns : EpochSide → List SourceColumn
  | .pre => fence.before
  | .post => fence.after

/-- The key columns of a side. -/
def key : EpochSide → List SourceColumn
  | .pre => fence.keyBefore
  | .post => fence.keyAfter

theorem key_subset (side : EpochSide) : fence.key side ⊆ fence.columns side := by
  cases side with
  | pre => exact fence.keyBefore_subset
  | post => exact fence.keyAfter_subset

end SchemaFence

/-! ### Events of one side -/

/-- An image has exactly the columns of a list. -/
def ImageOf (normalize : String → C) (columns : List SourceColumn)
    (image : Option (Image C V)) : Prop :=
  ∀ c, c ∈ imageNames image ↔ ∃ column ∈ columns, normalize column.name = c

/-- An event produced when the table had these columns and this key. Nothing is assumed of its
descriptors, which are put on it when it is admitted. -/
structure ProducedOn (normalize : String → C) (columns key : List SourceColumn)
    (event : PendingRecord C V) : Prop where
  change : event.op = some .create ∨ event.op = some .update ∨ event.op = some .delete ∨
    event.op = some .truncate
  keyed : event.op ≠ some .truncate → ImageOf normalize key event.key
  created : event.op = some .create →
    ImageOf normalize [] event.before ∧
      ImageOf normalize columns event.after
  updated : event.op = some .update →
    (ImageOf normalize [] event.before ∨
      ImageOf normalize key event.before ∨
      ImageOf normalize columns event.before) ∧
    ImageOf normalize columns event.after
  deleted : event.op = some .delete →
    (ImageOf normalize key event.before ∨
      ImageOf normalize columns event.before) ∧
    ImageOf normalize [] event.after
  truncated : event.op = some .truncate →
    ImageOf normalize [] event.key ∧
      ImageOf normalize [] event.before ∧
      ImageOf normalize [] event.after

/-- The event is an insert or an update. -/
def PendingRecord.writesRow (event : PendingRecord C V) : Prop :=
  event.op = some .create ∨ event.op = some .update

/-- The columns that an event shows. -/
def ShowsColumns (normalize : String → C) (visible : List SourceColumn)
    (event : PendingRecord C V) : Prop :=
  ∀ c, c ∈ event.fields ↔ ∃ column ∈ visible, normalize column.name = c

variable {normalize : String → C}

/-- The columns of three images together. -/
theorem ShowsColumns.of_images {event : PendingRecord C V}
    {key before after visible : List SourceColumn}
    (hkey : ImageOf normalize key event.key)
    (hbefore : ImageOf normalize before event.before)
    (hafter : ImageOf normalize after event.after)
    (hvisible : ∀ column, column ∈ visible ↔ column ∈ key ∨ column ∈ before ∨ column ∈ after) :
    ShowsColumns normalize visible event := by
  intro c
  simp only [PendingRecord.fields, List.mem_append, hkey c, hbefore c, hafter c, hvisible]
  grind

/-- An event shows columns of its side, and all of them if it writes a row. -/
theorem ProducedOn.exists_shows {columns key : List SourceColumn} {event : PendingRecord C V}
    (h : ProducedOn normalize columns key event) (hkey : key ⊆ columns) :
    ∃ visible ⊆ columns, ShowsColumns normalize visible event ∧
      (event.writesRow → visible = columns) := by
  have hfull : ∀ {before}, before ⊆ columns →
      ImageOf normalize before event.before →
      ImageOf normalize columns event.after →
      event.op ≠ some .truncate → ShowsColumns normalize columns event := by
    intro before hbefore himage hafter hop
    refine .of_images (h.keyed hop) himage hafter fun column =>
      ⟨fun hmem => Or.inr (Or.inr hmem), ?_⟩
    rintro (hmem | hmem | hmem)
    · exact hkey hmem
    · exact hbefore hmem
    · exact hmem
  rcases h.change with hop | hop | hop | hop
  · obtain ⟨hbefore, hafter⟩ := h.created hop
    exact ⟨columns, List.Subset.refl _, hfull (List.nil_subset _) hbefore hafter (by simp [hop]),
      fun _ => rfl⟩
  · obtain ⟨hbefore, hafter⟩ := h.updated hop
    refine ⟨columns, List.Subset.refl _, ?_, fun _ => rfl⟩
    rcases hbefore with hbefore | hbefore | hbefore
    · exact hfull (List.nil_subset _) hbefore hafter (by simp [hop])
    · exact hfull hkey hbefore hafter (by simp [hop])
    · exact hfull (List.Subset.refl _) hbefore hafter (by simp [hop])
  · obtain ⟨hbefore, hafter⟩ := h.deleted hop
    have hkeyed := h.keyed (by simp [hop])
    have hwrites : ¬ event.writesRow := by simp [PendingRecord.writesRow, hop]
    rcases hbefore with hbefore | hbefore
    · exact ⟨key, hkey, .of_images hkeyed hbefore hafter (by simp), fun hw => absurd hw hwrites⟩
    · refine ⟨columns, List.Subset.refl _, .of_images hkeyed hbefore hafter fun column => ?_,
        fun hw => absurd hw hwrites⟩
      simp only [List.not_mem_nil, or_false]
      exact ⟨Or.inr, fun hmem => hmem.elim (fun hmem => hkey hmem) id⟩
  · obtain ⟨hkeyed, hbefore, hafter⟩ := h.truncated hop
    exact ⟨[], List.nil_subset _, .of_images hkeyed hbefore hafter (by simp),
      fun hw => absurd hw (by simp [PendingRecord.writesRow, hop])⟩

/-! ### What the classifiers should answer -/

section

variable [DecidableEq C] [ToString C] (fence : SchemaFence normalize)

/-- The events of a unit on the table. -/
def SchemaFence.eventsOn (spill : Spill C V) (unit : CompleteUnit C V) (commitId : ℕ) :
    List (PendingRecord C V) :=
  (eventsForSchemaCheck spill unit commitId).filter (·.relation = some fence.change.qualified)

/-- **A unit of one side is classified as such**: it is not refused, it is post-change if it was
produced after the change and writes a row, and it is not if it was produced before. -/
structure EpochClassified (side : EpochSide) (spill : Spill C V) (unit : CompleteUnit C V)
    (commitId : ℕ) : Prop where
  notRefused : refuseMixedSchemaEpoch normalize (eventsForSchemaCheck spill unit commitId)
    fence.actions = .ok ()
  post : side = .post → (∃ event ∈ fence.eventsOn spill unit commitId, event.writesRow) →
    unitIsPostSchemaEpoch normalize spill unit fence.actions commitId = .ok true
  pre : side = .pre → unitIsPostSchemaEpoch normalize spill unit fence.actions commitId = .ok false

/-- No event speaks for a side. -/
def SpeaksNowhere (side : EpochSide) (events : List (PendingRecord C V)) : Prop :=
  ∀ event ∈ events, ∀ change ∈ fence.changes, ¬ Speaks normalize side event change

variable (normalize) in
/-- The event has only the new name of a renamed column. -/
def OnlyNewName (event : PendingRecord C V) (change : ColumnChange) : Prop :=
  change.kind = .renamed ∧ (change.destinationNewName normalize).any (· ∈ event.fields) ∧
    (change.destinationOldName normalize).all (· ∉ event.fields)

/-- **The events say what they should.** Each shows a type of every changed one, and no two of them
speak for different sides; before the change, no event with fields proves it; after the change, in
a unit that writes a row, none speaks for the side before, or one has only the new name of a renamed
column. -/
structure RightlyRead (side : EpochSide) (unit : CompleteUnit C V)
    (events : List (PendingRecord C V)) : Prop where
  typed : ∀ event ∈ events, ∀ change ∈ fence.changes, change.changesType = true →
    Speaks normalize .pre event change ∨ Speaks normalize .post event change
  oneSide : ∃ side, SpeaksNowhere fence side events
  pre : side = .pre → unit.fenced = true ∨ ∀ event ∈ events, event.fields ≠ [] →
    ∀ change ∈ fence.changes, ¬ ProvesPost normalize event change
  post : side = .post → (∃ event ∈ events, event.writesRow) →
    unit.fenced = false ∧ fence.changes ≠ [] ∧ fence.after ≠ [] ∧
      (SpeaksNowhere fence .pre events ∨
        ∃ event ∈ events, ∃ change ∈ fence.changes, OnlyNewName normalize event change)

/-! ### Lemmas -/

variable {fence}

omit [DecidableEq C] [ToString C] in
/-- A change has the names of its kind. -/
theorem SchemaFence.named_of_mem {change : ColumnChange} (h : change ∈ fence.changes) :
    change.Named := by
  obtain ⟨a, _, _, hkind, hnew, _⟩ | ⟨b, _, _, hkind, hold⟩ | ⟨b, a, _, _, _, hkind, hold, hnew⟩ |
    ⟨b, a, _, _, _, hkind⟩ := changeOf_cases (mem_diffColumns_iff.1 h)
  · simp [ColumnChange.Named, hkind, hnew]
  · simp [ColumnChange.Named, hkind, hold]
  · simp [ColumnChange.Named, hkind, hold, hnew]
  · simp [ColumnChange.Named, hkind]

omit [DecidableEq C] [ToString C] in
/-- A change of type has a column of one name on both sides, and the descriptor it has after. -/
theorem SchemaFence.typeChanged_of_mem {change : ColumnChange} (h : change ∈ fence.changes)
    (hkind : change.kind = .typeChanged) :
    ∃ b ∈ fence.before, ∃ a ∈ fence.after, b.name = a.name ∧
      change.newDescriptor = some a.descriptor := by
  have hchange := mem_diffColumns_iff.1 h
  generalize hb : columnAt fence.before change.attnum = b at hchange
  generalize ha : columnAt fence.after change.attnum = a at hchange
  rcases b with _ | b <;> rcases a with _ | a <;> simp only [changeOf] at hchange
  · exact absurd hchange (by simp)
  · rw [← Option.some.inj hchange] at hkind
    exact absurd hkind (by simp)
  · rw [← Option.some.inj hchange] at hkind
    exact absurd hkind (by simp)
  · have hbefore := ((columnAt_eq_some_iff fence.distinctBefore.attnums).1 hb).1
    have hafter := ((columnAt_eq_some_iff fence.distinctAfter.attnums).1 ha).1
    split_ifs at hchange with hname
    · rw [← Option.some.inj hchange] at hkind
      exact absurd hkind (by simp)
    · rw [← Option.some.inj hchange]
      exact ⟨b, hbefore, a, hafter, not_not.1 hname, rfl⟩

omit [DecidableEq C] [ToString C] in
theorem changesFor_actions (table : String) :
    changesFor fence.actions table =
      if fence.change.qualified = table then fence.changes else [] := by
  by_cases h : fence.change.qualified = table
  · rw [if_pos h, changesFor, SchemaFence.actions, List.filter_singleton, decide_eq_true h]
    exact List.flatMap_singleton ..
  · rw [if_neg h, changesFor, SchemaFence.actions, List.filter_singleton, decide_eq_false h]
    rfl

omit [DecidableEq C] [ToString C] in
theorem concerns_iff {event : PendingRecord C V} {change : ColumnChange} :
    Concerns fence.actions event change ↔
      event.relation = some fence.change.qualified ∧ change ∈ fence.changes := by
  simp only [Concerns, changesFor_actions]
  constructor
  · rintro ⟨table, hrelation, hchange⟩
    by_cases h : fence.change.qualified = table
    · rw [if_pos h] at hchange
      exact ⟨h ▸ hrelation, hchange⟩
    · rw [if_neg h] at hchange
      exact absurd hchange (by simp)
  · rintro ⟨hrelation, hchange⟩
    exact ⟨_, hrelation, by rw [if_pos rfl]; exact hchange⟩

variable {spill : Spill C V} {unit : CompleteUnit C V} {commitId : ℕ} {side : EpochSide}

/-- The unit is not refused exactly when its events on the table show their types and speak for one
side. -/
theorem notRefused_iff :
    refuseMixedSchemaEpoch normalize (eventsForSchemaCheck spill unit commitId) fence.actions =
        .ok () ↔
      (∀ event ∈ fence.eventsOn spill unit commitId, ∀ change ∈ fence.changes,
        change.changesType = true →
          Speaks normalize .pre event change ∨ Speaks normalize .post event change) ∧
      ∃ side, SpeaksNowhere fence side (fence.eventsOn spill unit commitId) := by
  have hnamed : ∀ table, ∀ change ∈ changesFor fence.actions table, change.Named := by
    intro table change hchange
    rw [changesFor_actions] at hchange
    split_ifs at hchange
    · exact SchemaFence.named_of_mem hchange
    · exact absurd hchange (by simp)
  have hon : ∀ {event}, event ∈ fence.eventsOn spill unit commitId ↔
      event ∈ eventsForSchemaCheck spill unit commitId ∧
        event.relation = some fence.change.qualified := by
    intro event
    simp [SchemaFence.eventsOn]
  rw [refuseMixedSchemaEpoch_eq_ok_iff hnamed]
  constructor
  · rintro ⟨hclear, hside⟩
    obtain ⟨side, hside⟩ := hside fence.change.qualified
    refine ⟨fun event hevent change hchange htype => ?_, side,
      fun event hevent change hchange => ?_⟩
    · exact (hclear event (hon.1 hevent).1 change
        (concerns_iff.2 ⟨(hon.1 hevent).2, hchange⟩)).2 htype
    · refine hside event (hon.1 hevent).1 (hon.1 hevent).2 change ?_
      rw [changesFor_actions, if_pos rfl]
      exact hchange
  · rintro ⟨htyped, side, hside⟩
    refine ⟨fun event hevent change hconcerns => ?_, fun table => ⟨side, fun event hevent hrelation
      change hchange => ?_⟩⟩
    · obtain ⟨hrelation, hchange⟩ := concerns_iff.1 hconcerns
      refine ⟨fun hboth => ?_, htyped event (hon.2 ⟨hevent, hrelation⟩) change hchange⟩
      refine hside event (hon.2 ⟨hevent, hrelation⟩) change hchange ?_
      cases side with
      | pre => exact hboth.1
      | post => exact hboth.2
    · rw [changesFor_actions] at hchange
      split_ifs at hchange with htable
      · exact hside event (hon.2 ⟨hevent, htable ▸ hrelation⟩) change hchange
      · exact absurd hchange (by simp)

/-- The answer of the second classifier on a unit that is not refused. -/
theorem exists_answer (htyped : ∀ event ∈ fence.eventsOn spill unit commitId,
      ∀ change ∈ fence.changes, change.changesType = true →
        Speaks normalize .pre event change ∨ Speaks normalize .post event change)
    (hside : SpeaksNowhere fence side (fence.eventsOn spill unit commitId)) :
    ∃ answer, unitIsPostSchemaEpoch normalize spill unit fence.actions commitId = .ok answer ∧
      (answer = true ↔ unit.fenced = false ∧ ∃ event ∈ fence.eventsOn spill unit commitId,
        event.fields ≠ [] ∧ ∃ change ∈ fence.changes, ProvesPost normalize event change) := by
  have hclear : ∀ event ∈ eventsForSchemaCheck spill unit commitId, ∀ change,
      Concerns fence.actions event change → Clear normalize event change := by
    intro event hevent change hconcerns
    obtain ⟨hrelation, hchange⟩ := concerns_iff.1 hconcerns
    have hon : event ∈ fence.eventsOn spill unit commitId :=
      List.mem_filter.2 ⟨hevent, by simpa using hrelation⟩
    refine ⟨fun hboth => hside event hon change hchange ?_, htyped event hon change hchange⟩
    cases side with
    | pre => exact hboth.1
    | post => exact hboth.2
  obtain ⟨answer, hanswer, hiff⟩ := exists_unitIsPost_iff hclear
  refine ⟨answer, hanswer, hiff.trans (and_congr_right fun _ => ?_)⟩
  simp only [concerns_iff, SchemaFence.eventsOn, List.mem_filter, decide_eq_true_eq]
  constructor
  · rintro ⟨event, hevent, hfields, change, ⟨hrelation, hchange⟩, hproves⟩
    exact ⟨event, ⟨hevent, hrelation⟩, hfields, change, hchange, hproves⟩
  · rintro ⟨event, ⟨hevent, hrelation⟩, hfields, change, hchange, hproves⟩
    exact ⟨event, hevent, hfields, change, ⟨hrelation, hchange⟩, hproves⟩

omit [ToString C] in
/-- An event that proves a change speaks for the side after it or has only the new name of a
renamed column. -/
theorem provesPost_iff {event : PendingRecord C V} {change : ColumnChange} :
    ProvesPost normalize event change ↔
      Speaks normalize .post event change ∨ OnlyNewName normalize event change :=
  Iff.rfl

omit [ToString C] in
/-- An event with only the new name of a renamed column has a field. -/
theorem OnlyNewName.fields_ne_nil {event : PendingRecord C V} {change : ColumnChange}
    (h : OnlyNewName normalize event change) : event.fields ≠ [] := by
  obtain ⟨new, _, hmem⟩ := (Option.any_eq_true _ _).1 h.2.1
  exact List.ne_nil_of_mem (of_decide_eq_true hmem)

omit [DecidableEq C] [ToString C] in
/-- After the change, an event with all columns that does not speak for the side before speaks for
the side after. -/
theorem Speaks.of_full {event : PendingRecord C V} {change : ColumnChange}
    (hshows : ShowsColumns normalize fence.after event) (hchange : change ∈ fence.changes)
    (htyped : change.changesType = true →
      Speaks normalize .pre event change ∨ Speaks normalize .post event change)
    (h : ¬ Speaks normalize .pre event change) : Speaks normalize .post event change := by
  have hnamed := SchemaFence.named_of_mem hchange
  by_cases htype : change.changesType = true
  · exact (htyped htype).resolve_left h
  simp only [Speaks, if_neg htype] at h ⊢
  cases hkind : change.kind with
  | added =>
    obtain ⟨new, hnew⟩ := Option.isSome_iff_exists.1 (hnamed.1 hkind)
    simp only [hkind, ColumnChange.destinationNewName, hnew, Option.map_some] at h ⊢
    simpa using h
  | dropped =>
    obtain ⟨old, hold⟩ := Option.isSome_iff_exists.1 (hnamed.2.1 hkind)
    simp only [hkind, ColumnChange.destinationOldName, hold, Option.map_some] at h ⊢
    simpa using h
  | renamed =>
    obtain ⟨b, a, _, ha, _, _, hnew⟩ := renamed_of_mem hchange hkind
    have hmem := ((columnAt_eq_some_iff fence.distinctAfter.attnums).1 ha).1
    refine ⟨normalize a.name, ?_, (hshows _).2 ⟨a, hmem, rfl⟩⟩
    rw [ColumnChange.destinationNewName, hnew, Option.map_some]
  | typeChanged => exact absurd (by simp [ColumnChange.changesType, hkind]) htype

variable (fence) in
/-- **A unit of one side is classified as such** exactly when its events are rightly read. -/
theorem epochClassified_iff
    (hproduced : ∀ event ∈ fence.eventsOn spill unit commitId,
      ProducedOn normalize (fence.columns side) (fence.key side) event) :
    EpochClassified fence side spill unit commitId ↔
      RightlyRead fence side unit (fence.eventsOn spill unit commitId) := by
  constructor
  · intro h
    obtain ⟨htyped, hside⟩ := notRefused_iff.1 h.notRefused
    obtain ⟨silent, hsilent⟩ := hside
    obtain ⟨answer, hanswer, hiff⟩ := exists_answer htyped hsilent
    refine ⟨htyped, ⟨silent, hsilent⟩, fun hpre => ?_, ?_⟩
    · have hfalse := Except.ok.inj (hanswer.symm.trans (h.pre hpre))
      rw [hfalse] at hiff
      by_cases hfenced : unit.fenced = true
      · exact Or.inl hfenced
      · refine Or.inr fun event hevent hfields change hchange hproves => ?_
        exact absurd (hiff.2 ⟨by simpa using hfenced, event, hevent, hfields, change, hchange,
          hproves⟩) (by decide)
    · rintro rfl hwrites
      have htrue := Except.ok.inj (hanswer.symm.trans (h.post rfl hwrites))
      obtain ⟨hfenced, event, hevent, hfields, change, hchange, hproves⟩ := hiff.1 htrue
      obtain ⟨visible, hvisible, hshows, _⟩ :=
        (hproduced event hevent).exists_shows (fence.key_subset .post)
      refine ⟨hfenced, List.ne_nil_of_mem hchange, ?_, ?_⟩
      · obtain ⟨c, hc⟩ := List.exists_mem_of_ne_nil _ hfields
        obtain ⟨column, hcolumn, _⟩ := (hshows c).1 hc
        exact List.ne_nil_of_mem (hvisible hcolumn)
      · rcases provesPost_iff.1 hproves with hpost | hrenamed
        · cases silent with
          | pre => exact Or.inl hsilent
          | post => exact absurd hpost (hsilent event hevent change hchange)
        · exact Or.inr ⟨event, hevent, change, hchange, hrenamed⟩
  · intro h
    obtain ⟨silent, hsilent⟩ := h.oneSide
    obtain ⟨answer, hanswer, hiff⟩ := exists_answer h.typed hsilent
    refine ⟨notRefused_iff.2 ⟨h.typed, silent, hsilent⟩, ?_, fun hpre => ?_⟩
    · rintro rfl hwrites
      obtain ⟨hfenced, hchanges, hafter, hpre | ⟨event, hevent, change, hchange, hrenamed⟩⟩ :=
        h.post rfl hwrites
      swap
      · rw [hanswer, hiff.2 ⟨hfenced, event, hevent, hrenamed.fields_ne_nil, change, hchange,
          Or.inr hrenamed⟩]
      obtain ⟨event, hevent, hrow⟩ := hwrites
      obtain ⟨visible, _, hshows, hfull⟩ :=
        (hproduced event hevent).exists_shows (fence.key_subset .post)
      obtain rfl := hfull hrow
      obtain ⟨change, hchange⟩ := List.exists_mem_of_ne_nil _ hchanges
      obtain ⟨column, hcolumn⟩ := List.exists_mem_of_ne_nil _ hafter
      have hfields : event.fields ≠ [] :=
        List.ne_nil_of_mem ((hshows _).2 ⟨column, hcolumn, rfl⟩)
      have hpost := Speaks.of_full hshows hchange (h.typed event hevent change hchange)
        (hpre event hevent change hchange)
      rw [hanswer, hiff.2 ⟨hfenced, event, hevent, hfields, change, hchange, Or.inl hpost⟩]
    · rw [hanswer, Except.ok.injEq, Bool.eq_false_iff]
      intro htrue
      obtain ⟨hfenced, event, hevent, hfields, change, hchange, hproves⟩ := hiff.1 htrue
      rcases h.pre hpre with hfenced' | hnone
      · rw [hfenced] at hfenced'
        exact absurd hfenced' (by decide)
      · exact hnone event hevent hfields change hchange hproves

/-- What `sanitize` makes of a listing: a field of the event with the name of a listed column
carries the descriptor of that column. -/
def PendingRecord.DescribedBy (normalize : String → C) (event : PendingRecord C V)
    (catalog : List SourceColumn) : Prop :=
  ∀ column ∈ catalog, normalize column.name ∈ event.fields →
    column.descriptor.fingerprint ∈ event.fingerprints

/-- **A row admitted after its change was seen.** A unit with a row written before a change of type
is not classified as one of that side when the row was admitted with the listing after the
change. -/
theorem not_epochClassified_of_confirmed {event : PendingRecord C V} {change : ColumnChange}
    (hevent : event ∈ fence.eventsOn spill unit commitId) (hfenced : unit.fenced = false)
    (hproduced : ProducedOn normalize fence.before fence.keyBefore event) (hrow : event.writesRow)
    (hdescribed : event.DescribedBy normalize fence.after)
    (hchange : change ∈ fence.changes) (hkind : change.kind = .typeChanged) :
    ¬ EpochClassified fence .pre spill unit commitId := by
  intro h
  obtain ⟨htyped, silent, hsilent⟩ := notRefused_iff.1 h.notRefused
  obtain ⟨answer, hanswer, hiff⟩ := exists_answer htyped hsilent
  obtain ⟨visible, _, hshows, hfull⟩ := hproduced.exists_shows (fence.key_subset .pre)
  obtain rfl := hfull hrow
  obtain ⟨b, hb, a, ha, hname, hnew⟩ := SchemaFence.typeChanged_of_mem hchange hkind
  have hfield : normalize a.name ∈ event.fields := (hshows _).2 ⟨b, hb, by rw [hname]⟩
  have hpost : Speaks normalize .post event change := by
    have htype : change.changesType = true := by simp [ColumnChange.changesType, hkind]
    simp only [Speaks, if_pos htype, PendingRecord.shows, hnew, decide_eq_true_eq]
    exact hdescribed a ha hfield
  have htrue := hiff.2 ⟨hfenced, event, hevent, List.ne_nil_of_mem hfield, change, hchange,
    Or.inl hpost⟩
  rw [htrue, h.pre rfl] at hanswer
  exact absurd (Except.ok.inj hanswer) (by decide)

end

namespace Accounts

/-- A listing of columns, with the names of their types. -/
def typedListing (columns : List (ℕ × String × String)) : List SourceColumn :=
  columns.map fun column =>
    { attnum := column.1, name := column.2.1, descriptor := { fingerprint := column.2.2 } }

/-- The descriptors of the columns of a listing. -/
def descriptorsOf (columns : List SourceColumn) (h : (columns.map (·.name)).Nodup) :
    Dict String Descriptor where
  items := columns.map fun column => (column.name, column.descriptor)
  nodup := by simpa [Function.comp_def] using h

/-- A row with all columns of a listing. -/
def rowOf (columns : List SourceColumn) (h : (columns.map (·.name)).Nodup) :
    Image String String :=
  .tabulate (columns.map (·.name)) h fun _ => some "1"

theorem imageOf_rowOf (columns : List SourceColumn) (h : (columns.map (·.name)).Nodup) :
    ImageOf id columns (some (rowOf columns h)) := by
  intro c
  simp [imageNames, rowOf]

theorem imageOf_none : ImageOf id [] (none : Option (Image String String)) := by
  intro c
  simp [imageNames]

/-- The insert of an account. -/
def insertOf (columns key : List SourceColumn) (h : (columns.map (·.name)).Nodup)
    (hkey : (key.map (·.name)).Nodup) : PendingRecord String String where
  kind := .data
  op := some .create
  schema := some "public"
  table := some "accounts"
  key := some (rowOf key hkey)
  keyDescriptors := descriptorsOf key hkey
  after := some (rowOf columns h)
  afterDescriptors := descriptorsOf columns h

theorem producedOn_insertOf (columns key : List SourceColumn) (h : (columns.map (·.name)).Nodup)
    (hkey : (key.map (·.name)).Nodup) : ProducedOn id columns key
      (insertOf columns key h hkey) where
  change := Or.inl rfl
  keyed _ := imageOf_rowOf key hkey
  created _ := ⟨imageOf_none, imageOf_rowOf columns h⟩
  updated hop := absurd hop (by simp [insertOf])
  deleted hop := absurd hop (by simp [insertOf])
  truncated hop := absurd hop (by simp [insertOf])

theorem distinctColumns_typedListing {columns : List (ℕ × String × String)}
    (h : (columns.map (·.1)).Nodup) (hnames : (columns.map (·.2.1)).Nodup) :
    DistinctColumns id (typedListing columns) where
  attnums := by simpa [typedListing, Function.comp_def] using h
  names := by simpa [typedListing, Function.comp_def] using hnames

/-- The key of the accounts. -/
def accountKey : List SourceColumn := typedListing [(1, "id", "int8")]

theorem nodup_accountKey : (accountKey.map (·.name)).Nodup := by simp [accountKey, typedListing]

/-- A column is added. -/
def noteAdded : SchemaFence (id : String → String) where
  schema := "public"
  table := "accounts"
  detectedLsn := 200
  before := accountKey
  after := typedListing [(1, "id", "int8"), (2, "note", "text")]
  keyBefore := accountKey
  keyAfter := accountKey
  distinctBefore := distinctColumns_typedListing (by decide) (by decide)
  distinctAfter := distinctColumns_typedListing (by decide) (by decide)
  keyBefore_subset := List.Subset.refl _
  keyAfter_subset := by simp [accountKey, typedListing]

theorem nodup_after_noteAdded : (noteAdded.after.map (·.name)).Nodup := by
  simp [noteAdded, typedListing]

/-- An account is inserted after the column was added. -/
def insertedWithNote : CompleteUnit String String where
  kind := .txn
  lastLsn := 190
  events := [insertOf noteAdded.after accountKey nodup_after_noteAdded nodup_accountKey]

theorem changes_noteAdded : noteAdded.changes =
    [{ kind := .added, attnum := 2, newName := some "note"
       newDescriptor := some { fingerprint := "text" } }] := by
  rfl

theorem insertedWithNote_epochClassified :
    EpochClassified noteAdded .post [] insertedWithNote 1 := by
  have hevents : ∀ event ∈ noteAdded.eventsOn [] insertedWithNote 1, event =
      insertOf noteAdded.after accountKey nodup_after_noteAdded nodup_accountKey :=
    fun event hevent => List.mem_singleton.1 (List.mem_filter.1 hevent).1
  have hsilent : SpeaksNowhere noteAdded .pre (noteAdded.eventsOn [] insertedWithNote 1) := by
    intro event hevent change hchange
    rw [changes_noteAdded, List.mem_singleton] at hchange
    rw [hevents event hevent, hchange]
    rintro ⟨new, hnew, hfields⟩
    obtain rfl := Option.some.inj hnew
    exact hfields (by decide)
  refine (epochClassified_iff noteAdded fun event hevent => ?_).2
    ⟨fun event hevent change hchange htype => ?_, ⟨.pre, hsilent⟩, ?_, fun _ _ => ?_⟩
  · rw [hevents event hevent]
    exact producedOn_insertOf _ _ _ _
  · rw [changes_noteAdded, List.mem_singleton] at hchange
    rw [hchange] at htype
    exact absurd htype (by decide)
  · exact fun hside => absurd hside (by decide)
  · refine ⟨rfl, ?_, by simp [noteAdded, typedListing], Or.inl hsilent⟩
    rw [changes_noteAdded]
    exact List.cons_ne_nil _ _

/-- A column is widened to the type of the key. -/
def amountWidened : SchemaFence (id : String → String) where
  schema := "public"
  table := "accounts"
  detectedLsn := 200
  before := typedListing [(1, "id", "int8"), (2, "amount", "int4")]
  after := typedListing [(1, "id", "int8"), (2, "amount", "int8")]
  keyBefore := accountKey
  keyAfter := accountKey
  distinctBefore := distinctColumns_typedListing (by decide) (by decide)
  distinctAfter := distinctColumns_typedListing (by decide) (by decide)
  keyBefore_subset := by simp [accountKey, typedListing]
  keyAfter_subset := by simp [accountKey, typedListing]

theorem nodup_before_amountWidened : (amountWidened.before.map (·.name)).Nodup := by
  simp [amountWidened, typedListing]

/-- An account is inserted before the column was widened. -/
def insertedNarrow : CompleteUnit String String where
  kind := .txn
  lastLsn := 190
  events := [insertOf amountWidened.before accountKey nodup_before_amountWidened nodup_accountKey]

/-- The insert is refused: the type of its key is the new type of the other column. -/
theorem insertedNarrow_not_epochClassified :
    (∀ event ∈ amountWidened.eventsOn [] insertedNarrow 1,
      ProducedOn id (amountWidened.columns .pre) (amountWidened.key .pre) event) ∧
    ¬ EpochClassified amountWidened .pre [] insertedNarrow 1 := by
  refine ⟨fun event hevent => ?_, fun h => ?_⟩
  · obtain rfl := List.mem_singleton.1 (List.mem_filter.1 hevent).1
    exact producedOn_insertOf _ _ _ _
  · have hrefused : refuseMixedSchemaEpoch id (eventsForSchemaCheck [] insertedNarrow 1)
        amountWidened.actions ≠ .ok () := by decide
    exact hrefused h.notRefused

end Accounts

end CdcFlight
