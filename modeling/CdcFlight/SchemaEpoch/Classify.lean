import CdcFlight.Lib.Checks
import CdcFlight.Planner.Units
import CdcFlight.Schema.Evolution

/-!
# The sides of a schema fence

The classifiers of `schema_epoch.py`. The side of a fence on which an event was produced is
inferred from the names of its images and from the fingerprints of its descriptors, once to refuse
a unit that contains both sides (`refuse_mixed_schema_epoch`) and once to find the units that come
after the fence (`unit_is_post_schema_epoch`).

`naming.normalize` is a parameter. The identity of a type without a descriptor is a text with a
colon, which is no fingerprint, so that no descriptor matches it.

## Main definitions

* `CdcFlight.CatalogChange`, `CdcFlight.CatalogAction`: the actions of a catalog plan.
* `CdcFlight.Spill`: the staged rows of the open commit groups.
* `CdcFlight.refuseMixedSchemaEpoch`, `CdcFlight.unitIsPostSchemaEpoch`: the classifiers.
* `CdcFlight.Speaks`: the side an event speaks for.

## Main results

* `CdcFlight.refuseMixedSchemaEpoch_eq_ok_iff`, `CdcFlight.exists_unitIsPost_iff`: what the
  classifiers answer, in these terms.
-/

namespace CdcFlight

open Lib

variable {C V : Type}

/-! ### Catalog actions -/

/-- The `CHANGE_*` kinds of `catalog_state.py`. -/
inductive CatalogChangeKind
  | dropped
  | recreated
  | unpublished
  | republished
  | new
  | schemaChanged
  | partitionAttached
  | partitionDetached
  | partitionDropped
deriving DecidableEq, Repr

/-- `CatalogChange`. -/
structure CatalogChange where
  kind : CatalogChangeKind
  schema : String
  table : String
  detectedLsn : ℕ
  columnChanges : List ColumnChange := []
deriving DecidableEq

/-- `CatalogChange.qualified`. -/
def CatalogChange.qualified (change : CatalogChange) : String :=
  change.schema ++ "." ++ change.table

/-- `CatalogAction`. -/
structure CatalogAction where
  change : CatalogChange
deriving DecidableEq

/-! ### The spill store -/

/-- A row of `spill_events`. -/
structure SpillRow (C V : Type) where
  commitId : ℕ
  unitSeq : ℕ
  staged : StagedEvent C V

/-- `_cdc_flight.spill_events`. -/
abbrev Spill (C V : Type) := List (SpillRow C V)

namespace Spill

/-- `ORDER BY event_seq`, which puts a null last. -/
def seqLe (a b : SpillRow C V) : Bool :=
  match a.staged.seq, b.staged.seq with
  | some m, some n => m ≤ n
  | none, some _ => false
  | _, none => true

/-- `SpillBuffer.load`. -/
def load (spill : Spill C V) (commitId unitSeq : ℕ) : List (StagedEvent C V) :=
  ((spill.filter fun row => row.commitId = commitId ∧ row.unitSeq = unitSeq).mergeSort seqLe).map
    (·.staged)

/-- `SpillBuffer.clear`. -/
def clear (spill : Spill C V) (commitId : ℕ) : Spill C V :=
  spill.filter (·.commitId ≠ commitId)

end Spill

/-- `events_for_schema_check`. -/
def eventsForSchemaCheck (spill : Spill C V) (unit : CompleteUnit C V) (commitId : ℕ) :
    List (PendingRecord C V) :=
  unit.events ++ match unit.spillUnitSeq with
    | none => []
    | some seq => (spill.load commitId seq).map (·.event)

/-! ### Evidence -/

/-- A side of a schema fence. -/
inductive EpochSide
  | pre
  | post
deriving DecidableEq, Repr

/-- The names of an image that is there. -/
def imageNames : Option (Image C V) → List C
  | none => []
  | some image => image.keys

namespace PendingRecord

/-- `fields`: the names of the three images. -/
def fields (event : PendingRecord C V) : List C :=
  imageNames event.before ++ imageNames event.after ++ imageNames event.key

/-- The fingerprints of the descriptors of the three images. -/
def fingerprints (event : PendingRecord C V) : List String :=
  (event.keyDescriptors.values ++ event.beforeDescriptors.values ++
    event.afterDescriptors.values).map (·.fingerprint)

end PendingRecord

/-- A change of type, of a column that keeps its name or of one that is renamed. -/
def ColumnChange.changesType (change : ColumnChange) : Bool :=
  change.kind = .typeChanged || change.kind = .renamed && change.typeChanged

/-- A fingerprint of the event is that of a descriptor. -/
def PendingRecord.shows (event : PendingRecord C V) (descriptor : Option Descriptor) : Bool :=
  match descriptor with
  | none => false
  | some d => d.fingerprint ∈ event.fingerprints

variable (normalize : String → C)

/-- `refusal_origin="schema_epoch"`. -/
def epochRefused (event : PendingRecord C V) (table message : String) : Refusal :=
  { errorClass := .schemaEvolutionRefused, target := table, sourceSchema := event.schema
    sourceTable := event.table, message }

/-- `_type_change_epoch`; `none` is the answer "mixed". -/
def typeChangeEpoch [ToString C] (event : PendingRecord C V) (change : ColumnChange)
    (table : String) : Except Refusal (Option EpochSide) :=
  match event.shows change.oldDescriptor, event.shows change.newDescriptor with
  | false, false => .error (epochRefused event table ("type-change evidence for " ++ table ++ "." ++
      (((change.destinationNewName normalize).or (change.destinationOldName normalize)).elim
        "None" toString) ++ " has no catalog descriptor fingerprint; the source unit is held " ++
      "rather than inferred from a same-name field"))
  | true, true => .ok none
  | true, false => .ok (some .pre)
  | false, true => .ok (some .post)

/-- `changes_by_table.get(table)`. -/
def changesFor (actions : List CatalogAction) (table : String) : List ColumnChange :=
  (actions.filter (·.change.qualified = table)).flatMap (·.change.columnChanges)

section

variable [DecidableEq C] [ToString C]

/-- The side one change gives an event, in `refuse_mixed_schema_epoch`. -/
def changeSide (event : PendingRecord C V) (table : String) (change : ColumnChange) :
    Except Refusal (Option EpochSide) :=
  let old := change.destinationOldName normalize
  let new := change.destinationNewName normalize
  if change.changesType then do
    match ← typeChangeEpoch normalize event change table with
    | none => .error (epochRefused event table ("row shape for " ++ table ++
        " contains both old and new recursive type descriptors for the same schema fence"))
    | some side => .ok (some side)
  else match change.kind, old, new with
    | .added, _, some new => .ok (some (if new ∈ event.fields then .post else .pre))
    | .dropped, some old, _ => .ok (some (if old ∈ event.fields then .pre else .post))
    | .renamed, some old, some new =>
      if old ∈ event.fields ∧ new ∈ event.fields then
        .error (epochRefused event table ("row shape for " ++ table ++
          " contains both sides of the rename '" ++ toString old ++ "' -> '" ++ toString new ++
          "'; the source transaction cannot be ordered safely around the schema fence"))
      else if old ∈ event.fields then .ok (some .pre)
      else if new ∈ event.fields then .ok (some .post)
      else .ok none
    | _, _, _ => .ok none

/-- The sides of one event, with its table. -/
def eventSides (actions : List CatalogAction) (event : PendingRecord C V) :
    Except Refusal (List (String × EpochSide)) :=
  match event.relation with
  | none => .ok []
  | some table => do
    let sides ← (changesFor actions table).mapM (changeSide normalize event table)
    return sides.filterMap fun side => side.map (table, ·)

/-- The tables of a unit with both sides, in order. -/
def mixedTables (sides : List (String × EpochSide)) : List String :=
  ((sides.map Prod.fst).dedup.filter fun table =>
    (table, .pre) ∈ sides ∧ (table, .post) ∈ sides).insertionSort (· ≤ ·)

/-- `refuse_mixed_schema_epoch`. -/
def refuseMixedSchemaEpoch (events : List (PendingRecord C V)) (actions : List CatalogAction) :
    Except Refusal Unit := do
  let sides ← events.mapM (eventSides normalize actions)
  match mixedTables sides.flatten with
  | [] => .ok ()
  | table :: _ => .error <|
      { errorClass := .schemaEvolutionRefused, target := table
        sourceSchema := some ((table.splitOn ".").headD "")
        sourceTable := some (".".intercalate (table.splitOn ".").tail)
        message := "source unit for " ++ table ++ " contains row images from both sides of a " ++
          "schema fence; a whole source transaction cannot be safely canonicalized, so it is " ++
          "refused for a replacement snapshot" }

/-- Whether one change proves an event to be post-fence, in `unit_is_post_schema_epoch`. -/
def changeIsPost (event : PendingRecord C V) (table : String) (change : ColumnChange) :
    Except Refusal Bool :=
  let old := change.destinationOldName normalize
  let new := change.destinationNewName normalize
  let renamed := change.kind = .renamed ∧ new.any (· ∈ event.fields) ∧ old.all (· ∉ event.fields)
  if change.kind = .added ∧ new.any (· ∈ event.fields) then .ok true
  else if change.kind = .dropped ∧ old.any (· ∉ event.fields) then .ok true
  else if change.changesType then do
    let epoch ← typeChangeEpoch normalize event change table
    return epoch = some .post ∨ renamed
  else .ok (decide renamed)

/-- Whether an event is post-fence. -/
def eventIsPost (actions : List CatalogAction) (event : PendingRecord C V) :
    Except Refusal Bool :=
  match event.relation with
  | none => .ok false
  | some table =>
    if event.fields = [] then .ok false
    else (changesFor actions table).anyM (changeIsPost normalize event table)

/-- `unit_is_post_schema_epoch`. -/
def unitIsPostSchemaEpoch (spill : Spill C V) (unit : CompleteUnit C V)
    (actions : List CatalogAction) (commitId : ℕ) : Except Refusal Bool :=
  if unit.fenced then .ok false
  else (eventsForSchemaCheck spill unit commitId).anyM (eventIsPost normalize actions)

/-! ### Agreement of the classifiers -/

variable {normalize}

/-- A change that gives an event a side has its type evidence. -/
theorem exists_typeChangeEpoch {event : PendingRecord C V} {table : String}
    {change : ColumnChange} {side : Option EpochSide}
    (h : changeSide normalize event table change = .ok side) (htype : change.changesType = true) :
    ∃ epoch, typeChangeEpoch normalize event change table = .ok epoch := by
  simp only [changeSide, if_pos htype] at h
  cases hepoch : typeChangeEpoch normalize event change table with
  | error e =>
    rw [hepoch] at h
    exact absurd h (by simp [bind, Except.bind])
  | ok epoch => exact ⟨epoch, rfl⟩

/-- The second classifier raises only where the first does. -/
theorem exists_changeIsPost {event : PendingRecord C V} {table : String}
    {change : ColumnChange} {side : Option EpochSide}
    (h : changeSide normalize event table change = .ok side) :
    ∃ answer, changeIsPost normalize event table change = .ok answer := by
  simp only [changeIsPost]
  split_ifs with hadded hdropped htype
  · exact ⟨_, rfl⟩
  · exact ⟨_, rfl⟩
  · obtain ⟨epoch, hepoch⟩ := exists_typeChangeEpoch h htype
    rw [hepoch]
    exact ⟨_, rfl⟩
  · exact ⟨_, rfl⟩

/-- The classifier of an event that has its sides returns. -/
theorem exists_eventIsPost {actions : List CatalogAction} {event : PendingRecord C V}
    {sides : List (String × EpochSide)} (h : eventSides normalize actions event = .ok sides) :
    ∃ answer, eventIsPost normalize actions event = .ok answer := by
  rw [eventSides] at h
  rw [eventIsPost]
  cases hrelation : event.relation with
  | none => exact ⟨false, rfl⟩
  | some table =>
    simp only [hrelation] at h ⊢
    by_cases hfields : event.fields = []
    · exact ⟨false, if_pos hfields⟩
    rw [if_neg hfields]
    refine exists_anyM fun change hchange => ?_
    cases hmap : (changesFor actions table).mapM (changeSide normalize event table) with
    | error e =>
      rw [hmap] at h
      exact absurd h (by simp [bind, Except.bind])
    | ok r =>
      obtain ⟨side, hside⟩ := exists_mapM_eq_ok_iff.1 ⟨r, hmap⟩ change hchange
      exact exists_changeIsPost hside

/-- **A unit that is not refused can be classified.** -/
theorem exists_unitIsPost {spill : Spill C V} {unit : CompleteUnit C V}
    {actions : List CatalogAction} {commitId : ℕ}
    (h : unit.fenced = false → refuseMixedSchemaEpoch normalize
      (eventsForSchemaCheck spill unit commitId) actions = .ok ()) :
    ∃ answer, unitIsPostSchemaEpoch normalize spill unit actions commitId = .ok answer := by
  rw [unitIsPostSchemaEpoch]
  cases hfenced : unit.fenced with
  | true => exact ⟨false, rfl⟩
  | false =>
    have hok := h hfenced
    rw [refuseMixedSchemaEpoch] at hok
    refine exists_anyM fun event hevent => ?_
    cases hmap : (eventsForSchemaCheck spill unit commitId).mapM (eventSides normalize actions) with
    | error e =>
      rw [hmap] at hok
      exact absurd hok (by simp [bind, Except.bind])
    | ok r =>
      obtain ⟨sides, hsides⟩ := exists_mapM_eq_ok_iff.1 ⟨r, hmap⟩ event hevent
      exact exists_eventIsPost hsides

/-! ### What the classifiers answer -/

variable (normalize) in
/-- The side an event speaks for, by a change: the names of its images, or for a change of type the
fingerprints of its descriptors. -/
def Speaks (side : EpochSide) (event : PendingRecord C V) (change : ColumnChange) : Prop :=
  if change.changesType then
    match side with
    | .pre => event.shows change.oldDescriptor = true
    | .post => event.shows change.newDescriptor = true
  else match change.kind, side with
    | .added, .pre => ∃ new, change.destinationNewName normalize = some new ∧ new ∉ event.fields
    | .added, .post => ∃ new, change.destinationNewName normalize = some new ∧ new ∈ event.fields
    | .dropped, .pre => ∃ old, change.destinationOldName normalize = some old ∧ old ∈ event.fields
    | .dropped, .post => ∃ old, change.destinationOldName normalize = some old ∧ old ∉ event.fields
    | .renamed, .pre => ∃ old, change.destinationOldName normalize = some old ∧ old ∈ event.fields
    | .renamed, .post => ∃ new, change.destinationNewName normalize = some new ∧ new ∈ event.fields
    | .typeChanged, _ => False

variable (normalize) in
/-- The event is clear about a change: it does not speak for both sides, and it speaks for one of
them if the change is one of type. -/
def Clear (event : PendingRecord C V) (change : ColumnChange) : Prop :=
  ¬ (Speaks normalize .pre event change ∧ Speaks normalize .post event change) ∧
    (change.changesType = true →
      Speaks normalize .pre event change ∨ Speaks normalize .post event change)

variable (normalize) in
/-- The event proves a change: it speaks for the side after it, or it has only the new name of a
column that changed its type with its name. -/
def ProvesPost (event : PendingRecord C V) (change : ColumnChange) : Prop :=
  Speaks normalize .post event change ∨ change.kind = .renamed ∧
    (change.destinationNewName normalize).any (· ∈ event.fields) ∧
      (change.destinationOldName normalize).all (· ∉ event.fields)

/-- A change has the names that its kind calls for. -/
def ColumnChange.Named (change : ColumnChange) : Prop :=
  (change.kind = .added → change.newName.isSome) ∧
  (change.kind = .dropped → change.oldName.isSome) ∧
    (change.kind = .renamed → change.oldName.isSome ∧ change.newName.isSome)

theorem EpochSide.forall {P : EpochSide → Prop} : (∀ s, P s) ↔ P .pre ∧ P .post :=
  ⟨fun h => ⟨h .pre, h .post⟩, fun h s => by cases s with
    | pre => exact h.1
    | post => exact h.2⟩

/-- The side a change gives is the one the event speaks for. -/
theorem changeSide_eq_ok_iff {event : PendingRecord C V} {table : String} {change : ColumnChange}
    (hnamed : change.Named) {side : Option EpochSide} :
    changeSide normalize event table change = .ok side ↔ Clear normalize event change ∧
      ∀ s, side = some s ↔ Speaks normalize s event change := by
  rw [EpochSide.forall]
  by_cases htype : change.changesType = true
  · simp only [changeSide, Clear, Speaks, if_pos htype, typeChangeEpoch]
    cases event.shows change.oldDescriptor <;> cases event.shows change.newDescriptor <;>
      rcases side with _ | _ | _ <;> simp [bind, Except.bind, htype]
  simp only [changeSide, Clear, Speaks, if_neg htype]
  cases hkind : change.kind with
  | added =>
    obtain ⟨new, hnew⟩ := Option.isSome_iff_exists.1 (hnamed.1 hkind)
    simp only [ColumnChange.destinationNewName, hnew, Option.map_some]
    by_cases hmem : normalize new ∈ event.fields <;> rcases side with _ | _ | _ <;>
      simp [hmem, htype]
  | dropped =>
    obtain ⟨old, hold⟩ := Option.isSome_iff_exists.1 (hnamed.2.1 hkind)
    simp only [ColumnChange.destinationOldName, hold, Option.map_some]
    by_cases hmem : normalize old ∈ event.fields <;> rcases side with _ | _ | _ <;>
      simp [hmem, htype]
  | renamed =>
    obtain ⟨old, hold⟩ := Option.isSome_iff_exists.1 (hnamed.2.2 hkind).1
    obtain ⟨new, hnew⟩ := Option.isSome_iff_exists.1 (hnamed.2.2 hkind).2
    simp only [ColumnChange.destinationOldName, ColumnChange.destinationNewName, hold, hnew,
      Option.map_some]
    by_cases hmem : normalize old ∈ event.fields <;>
      by_cases hmem' : normalize new ∈ event.fields <;>
        rcases side with _ | _ | _ <;> simp [hmem, hmem', htype]
  | typeChanged => exact absurd (by simp [ColumnChange.changesType, hkind]) htype

/-- What the second classifier makes of a change that the event is clear about. -/
theorem exists_changeIsPost_iff {event : PendingRecord C V} {table : String}
    {change : ColumnChange} (hclear : Clear normalize event change) :
    ∃ answer, changeIsPost normalize event table change = .ok answer ∧
      (answer = true ↔ ProvesPost normalize event change) := by
  by_cases htype : change.changesType = true
  · have hkind : change.kind ≠ .added ∧ change.kind ≠ .dropped := by
      constructor <;> rintro hkind <;> simp [ColumnChange.changesType, hkind] at htype
    simp only [Clear, ProvesPost, Speaks, if_pos htype] at hclear ⊢
    simp only [changeIsPost, hkind.1, hkind.2, false_and, if_false, if_pos htype, typeChangeEpoch]
    cases hold : event.shows change.oldDescriptor <;> cases hnew : event.shows change.newDescriptor
    · exact absurd (hclear.2 htype) (by simp [hold, hnew])
    · exact ⟨_, rfl, by simp⟩
    · exact ⟨_, rfl, by simp⟩
    · exact absurd ⟨hold, hnew⟩ hclear.1
  simp only [Clear, ProvesPost, Speaks, if_neg htype] at hclear ⊢
  simp only [changeIsPost, if_neg htype]
  cases hkind : change.kind with
  | added =>
    simp only [reduceCtorEq, true_and, false_and, if_false, decide_false, or_false]
    by_cases hnew : (change.destinationNewName normalize).any (· ∈ event.fields) = true
    · rw [if_pos hnew]
      exact ⟨true, rfl, by simpa [Option.any_eq_true] using hnew⟩
    · rw [if_neg hnew]
      exact ⟨false, rfl, by simpa [Option.any_eq_true] using hnew⟩
  | dropped =>
    simp only [reduceCtorEq, true_and, false_and, if_false, decide_false, or_false]
    by_cases hold : (change.destinationOldName normalize).any (· ∉ event.fields) = true
    · rw [if_pos hold]
      exact ⟨true, rfl, by simpa [Option.any_eq_true] using hold⟩
    · rw [if_neg hold]
      exact ⟨false, rfl, by simpa [Option.any_eq_true] using hold⟩
  | renamed =>
    rw [hkind] at hclear
    simp only [reduceCtorEq, true_and, false_and, if_false]
    refine ⟨_, rfl, ?_⟩
    rw [decide_eq_true_eq]
    refine ⟨fun h => Or.inr h, fun h => h.elim (fun hnew => ⟨?_, ?_⟩) id⟩
    · simpa [Option.any_eq_true] using hnew
    · rw [Option.all_eq_true]
      intro old hold
      refine decide_eq_true fun hmem => hclear.1 ⟨⟨old, hold, hmem⟩, hnew⟩
  | typeChanged => exact absurd (by simp [ColumnChange.changesType, hkind]) htype

/-- What an event without fields says, and the changes that concern it. -/
theorem exists_eventIsPost_iff {actions : List CatalogAction} {event : PendingRecord C V}
    {table : String} (hrelation : event.relation = some table)
    (hclear : ∀ change ∈ changesFor actions table, Clear normalize event change) :
    ∃ answer, eventIsPost normalize actions event = .ok answer ∧
      (answer = true ↔ event.fields ≠ [] ∧
        ∃ change ∈ changesFor actions table, ProvesPost normalize event change) := by
  simp only [eventIsPost, hrelation]
  by_cases hfields : event.fields = []
  · rw [if_pos hfields]
    exact ⟨false, rfl, by simp [hfields]⟩
  · rw [if_neg hfields]
    obtain ⟨answer, hanswer, hiff⟩ := exists_anyM_iff
      fun change hchange => exists_changeIsPost_iff (hclear change hchange)
    exact ⟨answer, hanswer, by simp [hiff, hfields]⟩

/-- The event concerns a change: the change is one of its table. -/
def Concerns (actions : List CatalogAction) (event : PendingRecord C V) (change : ColumnChange) :
    Prop :=
  ∃ table, event.relation = some table ∧ change ∈ changesFor actions table

variable {actions : List CatalogAction}

/-- An event has its sides exactly when it is clear about the changes that concern it. -/
theorem exists_eventSides_iff {event : PendingRecord C V}
    (hnamed : ∀ table, ∀ change ∈ changesFor actions table, change.Named) :
    (∃ sides, eventSides normalize actions event = .ok sides) ↔
      ∀ change, Concerns actions event change → Clear normalize event change := by
  rw [eventSides]
  cases hrelation : event.relation with
  | none => exact iff_of_true ⟨[], rfl⟩ fun change ⟨table, h, _⟩ => absurd (hrelation ▸ h) (by simp)
  | some table =>
    have hmap : (∃ sides, (changesFor actions table).mapM (changeSide normalize event table) =
        .ok sides) ↔ ∀ change, Concerns actions event change → Clear normalize event change := by
      rw [exists_mapM_eq_ok_iff]
      constructor
      · rintro h change ⟨table', htable, hchange⟩
        obtain rfl : table = table' := Option.some.inj (hrelation.symm.trans htable)
        obtain ⟨side, hside⟩ := h change hchange
        exact ((changeSide_eq_ok_iff (hnamed table change hchange)).1 hside).1
      · intro h change hchange
        have hclear := h change ⟨table, hrelation, hchange⟩
        by_cases hpre : Speaks normalize .pre event change
        · refine ⟨some .pre, (changeSide_eq_ok_iff (hnamed table change hchange)).2 ⟨hclear, ?_⟩⟩
          rw [EpochSide.forall]
          have hpost : ¬ Speaks normalize .post event change := fun hpost => hclear.1 ⟨hpre, hpost⟩
          simp [hpre, hpost]
        · by_cases hpost : Speaks normalize .post event change
          · refine ⟨some .post, (changeSide_eq_ok_iff (hnamed table change hchange)).2 ⟨hclear, ?_⟩⟩
            rw [EpochSide.forall]
            simp [hpre, hpost]
          · refine ⟨none, (changeSide_eq_ok_iff (hnamed table change hchange)).2 ⟨hclear, ?_⟩⟩
            rw [EpochSide.forall]
            simp [hpre, hpost]
    rw [← hmap]
    constructor
    · rintro ⟨sides, h⟩
      obtain ⟨sides', hsides, _⟩ := except_bind_eq_ok.1 h
      exact ⟨sides', hsides⟩
    · rintro ⟨sides, h⟩
      simp only [h]
      exact ⟨_, rfl⟩

/-- The sides of an event. -/
theorem mem_of_eventSides {event : PendingRecord C V} {sides : List (String × EpochSide)}
    (hnamed : ∀ table, ∀ change ∈ changesFor actions table, change.Named)
    (h : eventSides normalize actions event = .ok sides) {table : String} {side : EpochSide} :
    (table, side) ∈ sides ↔ event.relation = some table ∧
      ∃ change ∈ changesFor actions table, Speaks normalize side event change := by
  rw [eventSides] at h
  cases hrelation : event.relation with
  | none =>
    rw [hrelation] at h
    obtain rfl := Except.ok.inj h
    simp
  | some table' =>
    simp only [hrelation] at h
    obtain ⟨sides', hsides, hpure⟩ := except_bind_eq_ok.1 h
    obtain rfl := Except.ok.inj hpure
    have hspeaks : some side ∈ sides' ↔
        ∃ change ∈ changesFor actions table', Speaks normalize side event change := by
      rw [mem_of_mapM_eq_ok hsides]
      refine exists_congr fun change => and_congr_right fun hchange => ?_
      obtain ⟨side', hside'⟩ := exists_mapM_eq_ok_iff.1 ⟨sides', hsides⟩ change hchange
      have hspec := (changeSide_eq_ok_iff (hnamed table' change hchange)).1 hside'
      rw [hside', Except.ok.injEq, hspec.2 side]
    simp only [List.mem_filterMap, Option.map_eq_some_iff, Prod.mk.injEq, Option.some.injEq]
    constructor
    · rintro ⟨side', hmem, s, rfl, rfl, rfl⟩
      exact ⟨rfl, hspeaks.1 hmem⟩
    · rintro ⟨rfl, hchange⟩
      exact ⟨some side, hspeaks.2 hchange, side, rfl, rfl, rfl⟩

omit [DecidableEq C] [ToString C] in
theorem mixedTables_eq_nil_iff {sides : List (String × EpochSide)} :
    mixedTables sides = [] ↔ ∀ table, ¬ ((table, .pre) ∈ sides ∧ (table, .post) ∈ sides) := by
  rw [mixedTables, ← List.length_eq_zero_iff, List.length_insertionSort, List.length_eq_zero_iff,
    List.filter_eq_nil_iff]
  constructor
  · intro h table hboth
    exact h table (List.mem_dedup.2 (List.mem_map_of_mem hboth.1)) (by simpa using hboth)
  · intro h table _ hboth
    exact h table (by simpa using hboth)

/-- **A unit is not refused** exactly when its events are clear and, table by table, speak for one
side only. -/
theorem refuseMixedSchemaEpoch_eq_ok_iff {events : List (PendingRecord C V)}
    (hnamed : ∀ table, ∀ change ∈ changesFor actions table, change.Named) :
    refuseMixedSchemaEpoch normalize events actions = .ok () ↔
      (∀ event ∈ events, ∀ change, Concerns actions event change → Clear normalize event change) ∧
      ∀ table, ∃ side, ∀ event ∈ events, event.relation = some table →
        ∀ change ∈ changesFor actions table, ¬ Speaks normalize side event change := by
  rw [refuseMixedSchemaEpoch]
  by_cases hclear : ∀ event ∈ events, ∀ change, Concerns actions event change →
      Clear normalize event change
  · rw [and_iff_right hclear]
    obtain ⟨sides, hsides⟩ := exists_mapM_eq_ok_iff.2 fun event hevent =>
      (exists_eventSides_iff hnamed).2 (hclear event hevent)
    have hmem : ∀ table side, (table, side) ∈ sides.flatten ↔ ∃ event ∈ events,
        event.relation = some table ∧
          ∃ change ∈ changesFor actions table, Speaks normalize side event change := by
      intro table side
      rw [List.mem_flatten]
      constructor
      · rintro ⟨l, hl, hin⟩
        obtain ⟨event, hevent, hl⟩ := (mem_of_mapM_eq_ok hsides).1 hl
        exact ⟨event, hevent, (mem_of_eventSides hnamed hl).1 hin⟩
      · rintro ⟨event, hevent, hspeaks⟩
        obtain ⟨l, hl⟩ := (exists_eventSides_iff hnamed).2 (hclear event hevent)
        exact ⟨l, (mem_of_mapM_eq_ok hsides).2 ⟨event, hevent, hl⟩,
          (mem_of_eventSides hnamed hl).2 hspeaks⟩
    have hone : (∀ table, ∃ side, ∀ event ∈ events, event.relation = some table →
        ∀ change ∈ changesFor actions table, ¬ Speaks normalize side event change) ↔
        mixedTables sides.flatten = [] := by
      rw [mixedTables_eq_nil_iff]
      refine forall_congr' fun table => ?_
      rw [not_and_or, hmem, hmem]
      push Not
      constructor
      · rintro ⟨_ | _, hside⟩
        · exact Or.inl hside
        · exact Or.inr hside
      · exact fun h => h.elim (fun hside => ⟨_, hside⟩) fun hside => ⟨_, hside⟩
    rw [hone, hsides]
    simp only [bind, Except.bind]
    cases mixedTables sides.flatten with
    | nil => simp
    | cons table tables => simp
  · refine iff_of_false (fun h => hclear fun event hevent => ?_) fun h => hclear h.1
    obtain ⟨sides, hsides, _⟩ := except_bind_eq_ok.1 h
    exact (exists_eventSides_iff hnamed).1 (exists_mapM_eq_ok_iff.1 ⟨sides, hsides⟩ event hevent)

/-- **A unit is post-fence** exactly when it is not fenced and an event with fields proves a change
that concerns it. -/
theorem exists_unitIsPost_iff {spill : Spill C V} {unit : CompleteUnit C V} {commitId : ℕ}
    (hclear : ∀ event ∈ eventsForSchemaCheck spill unit commitId, ∀ change,
      Concerns actions event change → Clear normalize event change) :
    ∃ answer, unitIsPostSchemaEpoch normalize spill unit actions commitId = .ok answer ∧
      (answer = true ↔ unit.fenced = false ∧ ∃ event ∈ eventsForSchemaCheck spill unit commitId,
        event.fields ≠ [] ∧ ∃ change, Concerns actions event change ∧
          ProvesPost normalize event change) := by
  rw [unitIsPostSchemaEpoch]
  cases hfenced : unit.fenced with
  | true => exact ⟨false, rfl, by simp⟩
  | false =>
    simp only [true_and, Bool.false_eq_true, if_false]
    refine exists_anyM_iff fun event hevent => ?_
    cases hrelation : event.relation with
    | none =>
      refine ⟨false, by rw [eventIsPost, hrelation], ?_⟩
      simp [Concerns, hrelation]
    | some table =>
      have htable :
          ∀ change, Concerns actions event change ↔ change ∈ changesFor actions table := by
        intro change
        simp [Concerns, hrelation]
      obtain ⟨answer, hanswer, hiff⟩ := exists_eventIsPost_iff hrelation fun change hchange =>
        hclear event hevent change ((htable change).2 hchange)
      exact ⟨answer, hanswer, by simp only [hiff, htable]⟩

end

end CdcFlight
