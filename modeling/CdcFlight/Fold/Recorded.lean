import CdcFlight.Fold.Frame
import CdcFlight.Lib.Programs

/-!
# The fold with its key records and its failing calls

`table_work.collect` and `work_for` with the maps `key_values` and `key_descriptors`, which record
for every fold key the raw key and the descriptors that gave it, and with every call that may raise
in the middle of the fold: the questions to the destination, the encoding of a patch, the digests.
Where such a call raises, the fold keeps the state it had reached.

Where the calls answer and the table has key columns, the fold with its key records does on the
table's work what the fold without them does.

## Main definitions

* `CdcFlight.FoldContext`: what the fold calls.
* `CdcFlight.RecordedWork`: the work of a table with its key records.
* `CdcFlight.FoldContext.collect`, `CdcFlight.FoldContext.workFor`: the fold of an event.

## Main results

* `CdcFlight.FoldContext.collect_agrees`: with calls that answer, this is the fold.
-/

namespace CdcFlight

open Lib

/-- What the fold calls. Each call may raise; where the fold does not use the result, the call
returns nothing. -/
structure FoldContext (C V : Type) where
  /-- `CDCF_EVENT_ID`, the identity column of a table without key columns. -/
  eventIdColumn : C
  /-- `probe.start_exists`. -/
  startExists : TableWork C V → Token V → Except Refusal Bool
  /-- `probe.start_matches`; `none` when no column of the image can be compared. -/
  startMatches : TableWork C V → Token V → Image C V → Except Refusal (Option Bool)
  /-- `probe.keyless_event_applied`. -/
  keylessEventApplied : TableWork C V → String → Except Refusal Bool
  /-- `patch_for`, for an event that comes without its patch. -/
  patchFor : PendingRecord C V → String → Bool → Except Refusal (RowPatch C V)
  /-- `RowPatch.encoded_values`. -/
  encodedValues : RowPatch C V → Except Refusal Unit
  /-- `mark_canonical_range_text`. -/
  markRangeText : Descriptor → Option V → Except Refusal (Option V)
  /-- `_opaque_identity_digest`, as what of the value it keeps. -/
  identityDigest : Option V → Except Refusal (Option V)
  /-- `payload_digest`. -/
  digestPayload : PendingRecord C V → Except Refusal Unit

/-- The work of a table with `key_values` and `key_descriptors`. -/
structure RecordedWork (C V : Type) extends TableWork C V where
  /-- The raw key of every fold key. -/
  keyValues : Dict (Token V) (List (Option V)) := ∅
  /-- The descriptors that gave every fold key. -/
  keyDescriptors : Dict (Token V) (Dict C Descriptor) := ∅

/-- A program on the recorded work. -/
abbrev RecordedFold (C V : Type) := EStateM Refusal (RecordedWork C V)

variable {C V α : Type}

/-- The recorded work with other table work. -/
def RecordedWork.withWork (record : RecordedWork C V) (item : TableWork C V) : RecordedWork C V :=
  { record with toTableWork := item }

/-- Run a program on the table work. -/
def onWork (m : Fold C V α) : RecordedFold C V α := fun record =>
  match m.run record.toTableWork with
  | .ok a item => .ok a (record.withWork item)
  | .error e item => .error e (record.withWork item)

/-- Let a call answer or raise. -/
def ask (answer : Except Refusal α) : Fold C V α := MonadExcept.ofExcept answer

namespace FoldContext

variable [DecidableEq C] [DecidableEq V] (ctx : FoldContext C V)

/-! ### Rows under a key -/

/-- `_resolve_start`. -/
def resolveStart (key : Token V) : Fold C V Unit := do
  let item ← get
  match item.entriesAt key with
  | .start :: entries =>
    if item.truncated then set (item.setEntries key entries)
    else
      let present ← match item.startPresent.get? key with
        | some present => pure present
        | none => ask (ctx.startExists item key)
      modify fun item =>
        let item := item.cacheStart key present
        if present then item else item.setEntries key entries
  | _ => pure ()

/-- First sight of a key, and the question whether a lone `START` is there, as `_update`, `_remove`
and the incremental branch of `collect` begin. -/
def settleStart (key : Token V) : Fold C V Unit := do
  modify (·.seed key)
  if (← get).entriesAt key = [.start] then ctx.resolveStart key

variable [ColumnValue V]

/-- `_matches`. -/
def matchesEntry (key : Token V) (image : Image C V) : Entry C V → Fold C V Bool
  | .start => do
    let answer ← ask (ctx.startMatches (← get) key image)
    return answer.getD false
  | .patch p => pure (p.matchesImage image)
  | .move _ _ p => pure (p.matchesImage image)

/-- The part of `_target_entry` for two or more entries. -/
def attributeAmong (key : Token V) (before : BeforeImage C V) (what : Attributed) :
    Fold C V (Option ℕ) := do
  let item ← get
  let entries := item.entriesAt key
  let image := distinguishing item before.image before.descriptors before.typed
  if collapsedVariantNull item before ∧ 1 ≤ concrete entries then
    unattributable key what
      "the runtime collapses SQL NULL and JSONB root null into one null value"
  else if image.items = [] then
    if concrete entries ≤ 1 then pure none
    else unattributable key what "no distinguishing columns"
  else
    let answers ← entries.mapM (ctx.matchesEntry key image)
    let matched := (List.range entries.length).filter fun i => answers[i]?.getD false
    match choose entries matched with
    | some index => pure (some index)
    | none => unattributable key what "no candidate matches"

/-- `_target_entry`. -/
def targetEntry (key : Token V) (before : BeforeImage C V) (what : Attributed) :
    Fold C V (Option ℕ) := do
  if 1 < ((← get).entriesAt key).length then
    ctx.resolveStart key
  match (← get).entriesAt key with
  | [] => pure none
  | [_] => pure (some 0)
  | _ => ctx.attributeAmong key before what

/-- `_update`. -/
def update (key : Token V) (patch : RowPatch C V) (before : BeforeImage C V) : Fold C V Unit := do
  let item ← get
  if key ∈ item.deletedKeys then
    missingToastBase "UPDATE follows DELETE for the same physical key"
  else
    ctx.settleStart key
    if ((← get).entriesAt key) = [] then
      if (← get).incremental && (patch.complete || patch.bindsEveryField) then
        modify (·.place key { patch with complete := true } none)
      else missingToastBase "UPDATE has no destination base row"
    else
      match ← ctx.targetEntry key before .update with
      | none => modify fun item => (item.setEntries key [.patch patch]).track key
      | some index => modify fun item =>
        (item.setEntries key ((item.entriesAt key).modify index (Entry.updated patch))).track key

/-- `_remove`; returns the entry taken. -/
def remove (key : Token V) (before : BeforeImage C V) : Fold C V (Option (Entry C V)) := do
  ctx.settleStart key
  let index ← ctx.targetEntry key before .delete
  let entries := (← get).entriesAt key
  let left := match index with
    | none => []
    | some i => entries.eraseIdx i
  modify fun item => item.setEntries key left
  if left = [] then
    modify (·.addTombstone key)
  modify (·.track key)
  return index.bind fun i => entries[i]?

/-! ### Keyless tables -/

variable [ToString C]

/-- `complete_image`. -/
def completeImage (patch : RowPatch C V) (after : Bool) : Fold C V (Image C V) := do
  let item ← get
  if item.nativeColumns.keys ≠ [] then
    ask (ctx.encodedValues patch)
  CdcFlight.completeImage patch after

/-- Whether the keyless event has already been committed; a snapshot does not ask. -/
def keylessApplied (item : TableWork C V) (eventId : String) : Fold C V Bool :=
  if item.snapshot then pure false else ask (ctx.keylessEventApplied item eventId)

/-- `keyless_work.collect`. -/
def collectKeyless (event : PendingRecord C V) (eventId : String) (patch : RowPatch C V) :
    Fold C V Unit := do
  let item ← get
  if (← ctx.keylessApplied item eventId) then
    pure ()
  else if eventId ∈ item.keylessEventIds then
    throw (item.refusal .ambiguousDelete (": keyless event identity " ++ eventId ++
      " appeared twice in one commit group; refusing to apply an un-attributable physical " ++
      "operation"))
  else if event.op = some .delete then
    let before ← ctx.completeImage patch false
    ask (ctx.digestPayload event)
    modify (·.admitKeyless event eventId
      { keylessOperation event eventId with before := some before })
  else if event.op = some .update then
    let before ← ctx.completeImage
      (RowPatch.fromImage event.before event.beforeDescriptors event.typedBefore true) false
    ask (ctx.encodedValues patch)
    let _ ← ctx.completeImage patch true
    ask (ctx.digestPayload event)
    modify (·.admitKeyless event eventId
      { keylessOperation event eventId with before := some before, after := some patch.newRow })
  else if patch.hasMarker then
    missingToastBase "keyless sparse change has no safe base"
  else
    ask (ctx.encodedValues patch)
    ask (ctx.digestPayload event)
    modify (·.admitKeyless event eventId
      { keylessOperation event eventId with after := some patch.newRow })

/-! ### Fold keys -/

/-- The key columns of a table: those of its first event with an identity, `cdcf_event_id` if that
event has none. -/
def keyColumns (item : TableWork C V) : List C :=
  if item.keyColumns = [] ∧ item.identified then [ctx.eventIdColumn] else item.keyColumns

/-- One component of `_key_token`: the column with its descriptor, the value that is stored and the
component of the token. -/
structure KeyComponent (C V : Type) where
  column : C
  descriptor : Descriptor
  stored : Option V
  token : String × Option V

/-- One round of the loop of `_key_token`. -/
def keyComponent (descriptors : Dict C Descriptor) (updateNative : Bool) (p : C × Option V) :
    Fold C V (KeyComponent C V) := do
  let item ← get
  match (descriptors.get? p.1).or (item.descriptors.get? p.1) with
  | none => throw (item.refusal .schemaEvolutionRefused
      (": catalog descriptor is missing for key column " ++ toString p.1 ++
        "; the source unit is held for automatic retry"))
  | some d =>
    let stored ← ask (ctx.markRangeText d p.2)
    let digest ← ask (ctx.identityDigest stored)
    if updateNative then
      set { item with descriptors := item.descriptors.set p.1 d }
      if d.hasNativeType true then
        modify fun item => { item with nativeColumns := item.nativeColumns.set p.1 d }
      else throw (item.refusal .schemaEvolutionRefused ("." ++ toString p.1 ++
        ": source descriptor is not deliverable through the native destination"))
    return ⟨p.1, d, stored, (d.fingerprint, digest)⟩

/-- The end of `_key_token`: the raw key and its descriptors are recorded. -/
def recordKey (components : List (KeyComponent C V)) (record : RecordedWork C V) :
    RecordedWork C V :=
  let key := components.map (·.token)
  { record with
    keyValues := record.keyValues.set key (components.map (·.stored))
    keyDescriptors := record.keyDescriptors.set key
      (components.foldl (fun d component => d.set component.column component.descriptor) ∅) }

/-- `_key_token`. -/
def keyToken (values : C → Option V) (descriptors : Dict C Descriptor) (updateNative : Bool) :
    RecordedFold C V (Token V) := do
  let item ← get
  let components ← onWork (((ctx.keyColumns item.toTableWork).map fun c => (c, values c)).mapM
    (ctx.keyComponent descriptors updateNative))
  modify (recordKey components)
  return components.map (·.token)

/-! ### Collecting an event -/

/-- The incremental branch of `collect`. -/
def collectIncremental (key : Token V) (patch : RowPatch C V) : Fold C V Unit := do
  ctx.settleStart key
  let item ← get
  if key ∈ item.cdcKeys ∨ key ∈ item.deletedKeys ∨ key ∈ item.incrementalKeys ∨
      item.entriesAt key ≠ [] then
    pure ()
  else
    modify fun item =>
      { item with incrementalKeys := insert key item.incrementalKeys }.place key patch none

/-- The end of the delete branch of `collect`. -/
def recordDelete (event : PendingRecord C V) (eventId : String) (key : Token V)
    (item : TableWork C V) : TableWork C V :=
  let effect : KeylessOperation C V :=
    { keylessOperation event eventId with
      before := event.before, deleteMode := item.deleteMode }
  { item with
    softDeletes := if item.deleteMode = .soft then item.softDeletes.set key effect
      else item.softDeletes
    deleteEffects := item.deleteEffects.set eventId effect }

/-- The delete branch of `collect`. -/
def collectDelete (event : PendingRecord C V) (eventId : String) : RecordedFold C V Unit := do
  let key ← ctx.keyToken (columnOf event.before) event.beforeDescriptors false
  onWork do
    let _ ← ctx.remove key event.beforeImage
    ask (ctx.digestPayload event)
    modify (recordDelete event eventId key)

/-- The patch that a key change encodes: the removed row, patched. -/
def movedPatch (patch : RowPatch C V) : Option (Entry C V) → RowPatch C V
  | some (.patch p) => p.compose patch
  | _ => patch

/-- The update branch of `collect`. -/
def collectUpdate (event : PendingRecord C V) (key : Token V) (patch : RowPatch C V) :
    RecordedFold C V Unit := do
  let replace : RecordedFold C V Unit := onWork do
    ask (ctx.encodedValues patch)
    ctx.update key patch event.beforeImage
  let before := event.before.getD ∅
  if before.items = [] then replace
  else match event.key with
    | none => throw { errorClass := .typeError }
    | some keyImage =>
      if keyImage.keys.all before.contains then
        let old ← ctx.keyToken (columnOf event.before) event.beforeDescriptors false
        if old = key then replace
        else onWork do
          let removed ← ctx.remove old event.beforeImage
          modify (·.addCdcKey old)
          ask (ctx.encodedValues (movedPatch patch removed))
          modify (·.placeMoved key old patch removed)
      else replace

/-- The keyed part of `collect`. -/
def collectKeyed (event : PendingRecord C V) (eventId : String) (patch : RowPatch C V) :
    RecordedFold C V Unit := do
  let key ← ctx.keyToken (columnOf event.key)
    (event.afterDescriptors.overlay event.keyDescriptors fun _ _ => true) true
  if event.incremental then onWork (ctx.collectIncremental key patch)
  else
    onWork (modify (·.addCdcKey key))
    if event.op = some .delete then ctx.collectDelete event eventId
    else if event.op = some .update then ctx.collectUpdate event key patch
    else onWork do
      ask (ctx.encodedValues patch)
      modify (·.place key patch none)

/-- The truncate branch of `collect`. -/
def truncateMarker (eventId : String) (item : TableWork C V) : TableWork C V :=
  { item.truncate with
    keylessOperations :=
      item.keylessOperations ++ [{ eventId := eventId, operation := some .truncate }] }

/-- `collect`. -/
def collect (event : PendingRecord C V) (eventId : String) (given : Option (RowPatch C V)) :
    RecordedFold C V Unit := do
  if event.kind = .truncate then onWork (modify (truncateMarker eventId))
  else
    let item ← get
    let patch ← onWork <| match given with
      | some patch => pure patch
      | none => ask (ctx.patchFor event eventId item.snapshot)
    let descriptors :=
      if event.op = some .delete then event.beforeDescriptors else event.afterDescriptors
    onWork (forM patch.fields.items (declareField descriptors))
    onWork (modify TableWork.countEvent)
    if patch.hasMarker && (event.op = some .create || event.op = some .read) then
      onWork (missingToastBase "a sparse TOAST patch has no verified physical-row base")
    else if (← get).keyless then onWork (ctx.collectKeyless event eventId patch)
    else ctx.collectKeyed event eventId patch

/-! ### Calls on the work of a commit group -/

end FoldContext

/-- A call on the work of a table. -/
inductive FoldCall (C V : Type)
  | workFor (event : PendingRecord C V) (snapshot incremental : Bool)
      (deleteMode : Option DeleteMode)
  | collect (event : PendingRecord C V) (eventId : String) (patch : Option (RowPatch C V))
  | truncate
  | endTransaction

/-- The work `work_for` creates on first sight of a target. -/
def FoldCall.created (target : String) : FoldCall C V → Option (RecordedWork C V)
  | .workFor event snapshot incremental deleteMode =>
    some { toTableWork := TableWork.create target event snapshot incremental deleteMode }
  | _ => none

namespace FoldContext

variable [DecidableEq C] [DecidableEq V] [ColumnValue V] [ToString C] (ctx : FoldContext C V)

/-- What a call does to the work of its table. -/
def run : FoldCall C V → RecordedFold C V Unit
  | .workFor event _ incremental deleteMode => onWork do
    if incremental then modify ({ · with incremental := true })
    observe event deleteMode
  | .collect event eventId patch => ctx.collect event eventId patch
  | .truncate => onWork (modify TableWork.truncate)
  | .endTransaction => onWork endTransaction

/-- The state in which a program returns or raises. -/
def stateOf {σ : Type} : EStateM.Result Refusal σ α → σ
  | .ok _ s => s
  | .error _ s => s

/-- One call on the works of a commit group, under their targets. A call that raises leaves the
work as it was when it raised. -/
def call (works : Dict String (RecordedWork C V)) (p : String × FoldCall C V) :
    Dict String (RecordedWork C V) :=
  match (works.get? p.1).or (p.2.created p.1) with
  | some record => works.set p.1 (stateOf ((ctx.run p.2).run record))
  | none => works

end FoldContext

/-! ### Descriptors -/

/-- A state that differs in its descriptor maps only. -/
def TableWork.Redescribed (item item' : TableWork C V) : Prop :=
  ∃ descriptors nativeColumns, item' = item.redescribe descriptors nativeColumns

namespace TableWork.Redescribed

variable {item item' : TableWork C V}

theorem refl (item : TableWork C V) : item.Redescribed item :=
  ⟨item.descriptors, item.nativeColumns, rfl⟩

theorem redescribe (h : item.Redescribed item') (descriptors nativeColumns : Dict C Descriptor) :
    item.Redescribed (item'.redescribe descriptors nativeColumns) := by
  obtain ⟨d, n, rfl⟩ := h
  exact ⟨descriptors, nativeColumns, rfl⟩

theorem keyColumns (h : item.Redescribed item') : item'.keyColumns = item.keyColumns := by
  obtain ⟨d, n, rfl⟩ := h
  rfl

end TableWork.Redescribed

namespace FoldContext

variable [DecidableEq C] [ToString C] {item : TableWork C V}

/-- A key component redescribes columns. -/
theorem wp_keyComponent (ctx : FoldContext C V) {descriptors : Dict C Descriptor}
    {updateNative : Bool} (p : C × Option V) (item' : TableWork C V) (h : item.Redescribed item') :
    wp (ctx.keyComponent descriptors updateNative p) (fun _ => item.Redescribed)
      item.Redescribed item' := by
  unfold keyComponent
  simp only [wp_bind, wp_get]
  split
  · exact h
  · rename_i d _
    have hdescribe := h.redescribe (item'.descriptors.set p.1 d) item'.nativeColumns
    simp only [wp_bind]
    refine wp_ofExcept (fun stored _ => ?_) h
    rw [wp_bind]
    refine wp_ofExcept (fun digest _ => ?_) h
    refine wp_ite (fun _ => ?_) fun _ => h
    rw [wp_bind]
    refine wp_ite (fun _ => ?_) fun _ => hdescribe
    exact hdescribe.redescribe _ _

/-- The declaration of a column redescribes columns. -/
theorem wp_declareField [DecidableEq V] {descriptors : Dict C Descriptor} (p : C × FieldValue V)
    (item' : TableWork C V) (h : item.Redescribed item') :
    wp (declareField descriptors p) (fun _ => item.Redescribed) item.Redescribed item' := by
  unfold declareField
  simp only [wp_bind, wp_get]
  split
  · rename_i d _
    have hdescribe := h.redescribe (item'.descriptors.set p.1 d) item'.nativeColumns
    refine wp_ite (fun _ => ?_) fun _ => h
    rw [wp_bind]
    refine wp_ite (fun _ => ?_) fun _ => hdescribe
    exact hdescribe.redescribe _ _
  · exact wp_ite (fun _ => h) fun _ => h

theorem wp_declareFields [DecidableEq V] (descriptors : Dict C Descriptor)
    (fields : List (C × FieldValue V)) (item : TableWork C V) :
    wp (forM fields (declareField descriptors)) (fun _ => item.Redescribed) item.Redescribed item :=
  wp_forM wp_declareField fields (.refl item)

theorem wp_keyComponents (ctx : FoldContext C V) (descriptors : Dict C Descriptor)
    (updateNative : Bool) (columns : List (C × Option V)) (item : TableWork C V) :
    wp (columns.mapM (ctx.keyComponent descriptors updateNative)) (fun _ => item.Redescribed)
      item.Redescribed item :=
  wp_mapM (wp_keyComponent ctx) columns (.refl item)

end FoldContext

/-! ### Calls that answer -/

namespace FoldContext

variable (eventIdColumn : C) (probe : Probe C V)

/-- The calls of a fold whose questions a probe answers. -/
def answering [DecidableEq C] [ColumnValue V] : FoldContext C V where
  eventIdColumn := eventIdColumn
  startExists item key := .ok (probe.startExists item key)
  startMatches item key image := .ok (probe.startMatches item key image)
  keylessEventApplied item eventId := .ok (probe.keylessEventApplied item eventId)
  patchFor event eventId snapshot := .ok (RowPatch.fromEvent event 0 eventId snapshot)
  encodedValues _ := .ok ()
  markRangeText _ value := .ok value
  identityDigest value := .ok value
  digestPayload _ := .ok ()

variable [DecidableEq C] [DecidableEq V] [ColumnValue V] {key : Token V} {patch : RowPatch C V}
  {before : BeforeImage C V} {what : Attributed}

theorem resolveStart_answering :
    (answering eventIdColumn probe).resolveStart key = modify (·.resolveStart probe key) := by
  funext item
  show ((answering eventIdColumn probe).resolveStart key).run item =
    (modify (·.resolveStart probe key) : Fold C V Unit).run item
  unfold resolveStart
  simp only [EStateM.run_bind, EStateM.run_get, EStateM.run_modify, TableWork.resolveStart]
  cases item.entriesAt key with
  | nil => rfl
  | cons e entries =>
    cases e with
    | start =>
      dsimp only
      by_cases htruncated : item.truncated = true
      · rw [if_pos htruncated, if_pos htruncated]
        rfl
      · rw [if_neg htruncated, if_neg htruncated]
        cases item.startPresent.get? key <;> rfl
    | patch p => rfl
    | move s t p => rfl

theorem settleStart_answering :
    (answering eventIdColumn probe).settleStart key = modify (·.settleStart probe key) := by
  funext item
  show ((answering eventIdColumn probe).settleStart key).run item =
    (modify (·.settleStart probe key) : Fold C V Unit).run item
  unfold settleStart
  simp only [EStateM.run_bind, EStateM.run_get, EStateM.run_modify, TableWork.settleStart,
    resolveStart_answering]
  split_ifs <;> rfl

theorem run_matchesEntry_answering {image : Image C V} (item : TableWork C V) (e : Entry C V) :
    ((answering eventIdColumn probe).matchesEntry key image e).run item =
      .ok (CdcFlight.matchesEntry probe item key image e) item := by
  cases e <;> rfl

theorem run_mapM_matchesEntry_answering {image : Image C V} (item : TableWork C V)
    (entries : List (Entry C V)) :
    (entries.mapM ((answering eventIdColumn probe).matchesEntry key image)).run item =
      .ok (entries.map (CdcFlight.matchesEntry probe item key image)) item := by
  induction entries with
  | nil => rfl
  | cons e entries ih =>
    rw [List.mapM_cons, run_bind_of_ok (run_matchesEntry_answering eventIdColumn probe item e),
      run_bind_of_ok ih]
    rfl

theorem attributeAmong_answering :
    (answering eventIdColumn probe).attributeAmong key before what =
      CdcFlight.attributeAmong probe key before what := by
  funext item
  show ((answering eventIdColumn probe).attributeAmong key before what).run item =
    (CdcFlight.attributeAmong probe key before what).run item
  unfold attributeAmong CdcFlight.attributeAmong
  simp only [EStateM.run_bind, EStateM.run_get]
  have hmatched (image : Image C V) (entries : List (Entry C V)) (i : ℕ) :
      (entries.map (CdcFlight.matchesEntry probe item key image))[i]?.getD false =
        entries[i]?.any (CdcFlight.matchesEntry probe item key image) := by
    rw [List.getElem?_map]
    cases entries[i]? <;> rfl
  split_ifs
  · rfl
  · rfl
  · rfl
  · rw [EStateM.run_bind, run_mapM_matchesEntry_answering]
    exact (List.filter_congr fun i _ => hmatched _ _ i) ▸ rfl

theorem targetEntry_answering :
    (answering eventIdColumn probe).targetEntry key before what =
      CdcFlight.targetEntry probe key before what := by
  unfold targetEntry
  simp only [resolveStart_answering, attributeAmong_answering]
  rfl

theorem update_answering :
    (answering eventIdColumn probe).update key patch before =
      CdcFlight.update probe key patch before := by
  funext item
  show ((answering eventIdColumn probe).update key patch before).run item =
    (CdcFlight.update probe key patch before).run item
  unfold update CdcFlight.update
  simp only [EStateM.run_bind, EStateM.run_get, settleStart_answering, targetEntry_answering]
  split_ifs
  · rfl
  · rfl

theorem remove_answering :
    (answering eventIdColumn probe).remove key before = CdcFlight.remove probe key before := by
  unfold remove
  simp only [settleStart_answering, targetEntry_answering]
  rfl

variable [ToString C] {event : PendingRecord C V} {eventId : String}

omit [DecidableEq V] in
theorem completeImage_answering {after : Bool} :
    (answering eventIdColumn probe).completeImage patch after =
      CdcFlight.completeImage patch after := by
  funext item
  show ((answering eventIdColumn probe).completeImage patch after).run item = _
  unfold completeImage
  simp only [EStateM.run_bind, EStateM.run_get]
  split_ifs <;> rfl

omit [DecidableEq V] in
theorem collectKeyless_answering :
    (answering eventIdColumn probe).collectKeyless event eventId patch =
      CdcFlight.collectKeyless probe event eventId patch := by
  funext item
  show ((answering eventIdColumn probe).collectKeyless event eventId patch).run item =
    (CdcFlight.collectKeyless probe event eventId patch).run item
  unfold collectKeyless CdcFlight.collectKeyless
  have happlied : (answering eventIdColumn probe).keylessApplied item eventId =
      pure (!item.snapshot && probe.keylessEventApplied item eventId) := by
    unfold keylessApplied
    cases item.snapshot <;> rfl
  simp only [EStateM.run_bind, EStateM.run_get, completeImage_answering, happlied]
  rfl

omit [DecidableEq V] in
theorem keyComponent_answering {descriptors : Dict C Descriptor} {updateNative : Bool}
    (p : C × Option V) :
    CdcFlight.keyComponent descriptors updateNative p =
      KeyComponent.token <$> (answering eventIdColumn probe).keyComponent descriptors updateNative
        p := by
  funext item
  show (CdcFlight.keyComponent descriptors updateNative p).run item =
    (KeyComponent.token <$> (answering eventIdColumn probe).keyComponent descriptors updateNative
      p).run item
  unfold keyComponent CdcFlight.keyComponent
  simp only [EStateM.run_bind, EStateM.run_map, EStateM.run_get]
  cases (descriptors.get? p.1).or (item.descriptors.get? p.1) with
  | none => rfl
  | some d =>
    cases updateNative
    · rfl
    · cases hnative : d.hasNativeType true
      · simp only [hnative]
        rfl
      · simp only [hnative]
        rfl

omit [DecidableEq V] in
theorem mapM_keyComponent_answering {descriptors : Dict C Descriptor} {updateNative : Bool}
    (l : List (C × Option V)) :
    l.mapM (CdcFlight.keyComponent descriptors updateNative) =
      List.map KeyComponent.token <$>
        l.mapM ((answering eventIdColumn probe).keyComponent descriptors updateNative) := by
  induction l with
  | nil => rfl
  | cons p l ih =>
    simp only [List.mapM_cons, ih, keyComponent_answering eventIdColumn probe, map_bind,
      bind_map_left, map_pure, List.map_cons]

/-! ### Agreement with the fold -/

/-- A record carries table work with key columns. -/
structure Carries (record : RecordedWork C V) (item : TableWork C V) : Prop where
  work : record.toTableWork = item
  columns : item.keyColumns ≠ []

omit [DecidableEq C] [DecidableEq V] [ColumnValue V] [ToString C] in
/-- A program on the table work, run on a record, does the same to its work. -/
theorem onWork_agrees (m : Fold C V α) (record : RecordedWork C V) :
    Agrees (fun record item => record.toTableWork = item) (onWork m) m record
      record.toTableWork := by
  unfold Agrees onWork
  show AgreeingResults _ (match m.run record.toTableWork with
    | .ok a item => .ok a (record.withWork item)
    | .error e item => .error e (record.withWork item)) _
  cases m.run record.toTableWork with
  | ok a item => exact .ok a rfl
  | error e item => exact .error e rfl

omit [DecidableEq C] [DecidableEq V] [ColumnValue V] [ToString C] in
/-- And the record goes on carrying it, if the program keeps the key columns. -/
theorem onWork_carries {m : Fold C V α} {record : RecordedWork C V} {item : TableWork C V}
    (h : Carries record item)
    (hm : wp m (fun _ item' => item'.keyColumns = item.keyColumns)
      (fun item' => item'.keyColumns = item.keyColumns) item) :
    Agrees Carries (onWork m) m record item := by
  obtain rfl := h.work
  unfold Agrees onWork
  show AgreeingResults _ (match m.run record.toTableWork with
    | .ok a item => .ok a (record.withWork item)
    | .error e item => .error e (record.withWork item)) _
  cases hrun : m.run record.toTableWork with
  | ok a item => exact .ok a ⟨rfl, ((wp_of_ok hrun).1 hm).symm ▸ h.columns⟩
  | error e item => exact .error e ⟨rfl, ((wp_of_error hrun).1 hm).symm ▸ h.columns⟩

variable {record : RecordedWork C V} {item : TableWork C V}

/-- With calls that answer, a fold key is recorded and is the fold key. -/
theorem keyToken_agrees {values : C → Option V} {descriptors : Dict C Descriptor}
    {updateNative : Bool} (h : Carries record item) :
    Agrees Carries ((answering eventIdColumn probe).keyToken values descriptors updateNative)
      (CdcFlight.keyToken values descriptors updateNative) record item := by
  obtain rfl := h.work
  have hcolumns : (answering eventIdColumn probe).keyColumns record.toTableWork =
      record.keyColumns := by
    unfold keyColumns
    rw [if_neg fun hand => h.columns hand.1]
  unfold keyToken CdcFlight.keyToken
  refine agrees_get_bind ?_
  rw [if_neg h.columns, hcolumns, mapM_keyComponent_answering eventIdColumn probe,
    ← bind_pure_comp]
  refine (onWork_carries h ?_).bind fun components record item hst => ?_
  · exact wp_mono (wp_keyComponents _ _ _ _ _) (fun _ _ hitem => hitem.keyColumns)
      fun _ hitem => hitem.keyColumns
  · exact .ok _ ⟨hst.work, hst.columns⟩

omit [ToString C] in
theorem collectIncremental_answering :
    (answering eventIdColumn probe).collectIncremental key patch =
      CdcFlight.collectIncremental probe key patch := by
  unfold collectIncremental CdcFlight.collectIncremental
  simp only [settleStart_answering]

omit [DecidableEq C] [DecidableEq V] [ColumnValue V] [ToString C] in
theorem Carries.le (record : RecordedWork C V) (item : TableWork C V) (h : Carries record item) :
    record.toTableWork = item := h.work

theorem collectDelete_agrees (h : Carries record item) :
    Agrees (fun record item => record.toTableWork = item)
      ((answering eventIdColumn probe).collectDelete event eventId)
      (CdcFlight.collectDelete probe event eventId) record item := by
  unfold collectDelete CdcFlight.collectDelete
  refine (keyToken_agrees eventIdColumn probe h).bind_of_le Carries.le fun key record item h => ?_
  obtain rfl := h.work
  rw [remove_answering]
  exact onWork_agrees _ record

theorem collectUpdate_agrees (h : Carries record item) :
    Agrees (fun record item => record.toTableWork = item)
      ((answering eventIdColumn probe).collectUpdate event key patch)
      (CdcFlight.collectUpdate probe event key patch) record item := by
  have hreplace {record : RecordedWork C V} {item : TableWork C V}
      (h : record.toTableWork = item) :
      Agrees (fun record item => record.toTableWork = item)
        (onWork do
          ask ((answering eventIdColumn probe).encodedValues patch)
          (answering eventIdColumn probe).update key patch event.beforeImage)
        (CdcFlight.update probe key patch event.beforeImage) record item := by
    subst h
    rw [update_answering]
    exact onWork_agrees _ record
  unfold collectUpdate CdcFlight.collectUpdate
  dsimp only
  refine agrees_ite (fun _ => hreplace h.work) fun _ => ?_
  cases event.key with
  | none => exact agrees_throw _ h.work
  | some keyImage =>
    refine agrees_ite (fun _ => ?_) fun _ => hreplace h.work
    refine (keyToken_agrees eventIdColumn probe h).bind_of_le Carries.le fun old record item h => ?_
    refine agrees_ite (fun _ => hreplace h.work) fun _ => ?_
    obtain rfl := h.work
    rw [remove_answering]
    have hprogram : (do
        let removed ← CdcFlight.remove probe old event.beforeImage
        modify (·.addCdcKey old)
        ask ((answering eventIdColumn probe).encodedValues (movedPatch patch removed))
        modify (·.placeMoved key old patch removed) : Fold C V Unit) =
        (do
          let removed ← CdcFlight.remove probe old event.beforeImage
          modify fun item => (item.addCdcKey old).placeMoved key old patch removed) := rfl
    rw [← hprogram]
    exact onWork_agrees _ record

theorem collectKeyed_agrees (h : Carries record item) :
    Agrees (fun record item => record.toTableWork = item)
      ((answering eventIdColumn probe).collectKeyed event eventId patch)
      (CdcFlight.collectKeyed probe event eventId patch) record item := by
  unfold collectKeyed CdcFlight.collectKeyed
  refine (keyToken_agrees eventIdColumn probe h).bind_of_le Carries.le fun key record item h => ?_
  refine agrees_ite (fun _ => ?_) fun _ => ?_
  · obtain rfl := h.work
    rw [collectIncremental_answering]
    exact onWork_agrees _ record
  · refine (onWork_carries h ((wp_modify _).2 rfl)).bind_of_le Carries.le fun _ record item h => ?_
    refine agrees_ite (fun _ => collectDelete_agrees eventIdColumn probe h) fun _ => ?_
    refine agrees_ite (fun _ => collectUpdate_agrees eventIdColumn probe h) fun _ => ?_
    obtain rfl := h.work
    exact onWork_agrees _ record

/-- **Agreement.** Where the calls answer and the table has key columns, the fold with its key
records does on the table work what the fold does. -/
theorem collect_agrees (h : Carries record item) :
    Agrees (fun record item => record.toTableWork = item)
      ((answering eventIdColumn probe).collect event eventId (some patch))
      (CdcFlight.collect probe event eventId patch) record item := by
  unfold collect CdcFlight.collect
  obtain rfl := h.work
  refine agrees_ite (fun _ => onWork_agrees _ record) fun _ => ?_
  -- the patch is at hand
  let descriptors :=
    if event.op = some .delete then event.beforeDescriptors else event.afterDescriptors
  show Agrees _ (do
    onWork (forM patch.fields.items (declareField descriptors))
    onWork (modify TableWork.countEvent)
    if patch.hasMarker && (event.op = some .create || event.op = some .read) then
      onWork (missingToastBase "a sparse TOAST patch has no verified physical-row base")
    else if (← get).keyless then
      onWork ((answering eventIdColumn probe).collectKeyless event eventId patch)
    else (answering eventIdColumn probe).collectKeyed event eventId patch) (do
    forM patch.fields.items (declareField descriptors)
    modify TableWork.countEvent
    if patch.hasMarker && (event.op = some .create || event.op = some .read) then
      missingToastBase "a sparse TOAST patch has no verified physical-row base"
    else if (← get).keyless then CdcFlight.collectKeyless probe event eventId patch
    else CdcFlight.collectKeyed probe event eventId patch) record record.toTableWork
  have hdeclare := wp_mono
    (wp_declareFields descriptors patch.fields.items record.toTableWork)
    (fun _ _ hitem => hitem.keyColumns) fun _ hitem => hitem.keyColumns
  refine (onWork_carries h hdeclare).bind_of_le Carries.le fun _ record item h => ?_
  refine (onWork_carries h ((wp_modify _).2 rfl)).bind_of_le Carries.le fun _ record item h => ?_
  obtain rfl := h.work
  refine agrees_ite (fun _ => onWork_agrees _ record) fun _ => agrees_get_bind ?_
  rw [collectKeyless_answering]
  exact agrees_ite (fun _ => onWork_agrees _ record) fun _ =>
    collectKeyed_agrees eventIdColumn probe h

end FoldContext

end CdcFlight
