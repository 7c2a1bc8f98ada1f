import CdcFlight.Fold.Keyless

/-!
# The fold of a keyed table

`table_work.collect`, `truncate` and `end_transaction`. Every event is one physical operation on
the list of rows that wear a key: an insert appends a row, an update replaces the row its
before-image identifies, a delete removes it, a truncate removes every row of every key. Which row
a before-image identifies is decided by `targetEntry`.

## Main definitions

* `CdcFlight.keyToken`: the fold key of an event.
* `CdcFlight.TableWork.place`, `CdcFlight.update`, `CdcFlight.remove`: the operations on a key.
* `CdcFlight.targetEntry`: attribution.
* `CdcFlight.collect`, `CdcFlight.TableWork.truncate`, `CdcFlight.endTransaction`: the fold.
* `CdcFlight.foldEvent`, `CdcFlight.foldTransaction`: one record, one source transaction.
-/

namespace CdcFlight

open Lib

variable {C V : Type} [DecidableEq C] [DecidableEq V]

/-! ### Rows under a key -/

/-- The live rows under a key, none when the key has not been seen. -/
def TableWork.entriesAt (item : TableWork C V) (key : Token V) : List (Entry C V) :=
  (item.live.get? key).getD []

/-- Store the rows under a key. -/
def TableWork.setEntries (item : TableWork C V) (key : Token V) (entries : List (Entry C V)) :
    TableWork C V :=
  { item with live := item.live.set key entries }

/-- `_entries`: first sight of a key seeds `START`, except after a truncate. -/
def TableWork.seed (item : TableWork C V) (key : Token V) : TableWork C V :=
  match item.live.get? key with
  | some _ => item
  | none => item.setEntries key (if item.truncated then [] else [.start])

/-- `_concrete`. -/
def concrete : List (Entry C V) → ℕ
  | .start :: entries => entries.length
  | entries => entries.length

/-- `_track`. -/
def TableWork.track (item : TableWork C V) (key : Token V) : TableWork C V :=
  { item with
    multi := if 1 < (item.entriesAt key).length ∧ 1 < concrete (item.entriesAt key) then
        insert key item.multi
      else item.multi.erase key }

/-- `deleted_keys.discard`: the key is worn again. -/
def TableWork.clearTombstone (item : TableWork C V) (key : Token V) : TableWork C V :=
  { item with deletedKeys := item.deletedKeys.erase key }

/-- `deleted_keys.add`. -/
def TableWork.addTombstone (item : TableWork C V) (key : Token V) : TableWork C V :=
  { item with deletedKeys := insert key item.deletedKeys }

/-- `start_present[key] = present`. -/
def TableWork.cacheStart (item : TableWork C V) (key : Token V) (present : Bool) :
    TableWork C V :=
  { item with startPresent := item.startPresent.set key present }

/-- `_resolve_start`: drop `START` when the destination has no row under the key. -/
def TableWork.resolveStart (probe : Probe C V) (key : Token V) (item : TableWork C V) :
    TableWork C V :=
  match item.entriesAt key with
  | .start :: entries =>
    if item.truncated then item.setEntries key entries
    else
      let present := (item.startPresent.get? key).getD (probe.startExists item key)
      let item := item.cacheStart key present
      if present then item else item.setEntries key entries
  | _ => item

/-- `_place`: one more row wears the key. -/
def TableWork.place (key : Token V) (patch : RowPatch C V) (moveFrom : Option (Token V))
    (item : TableWork C V) : TableWork C V :=
  let item := (item.clearTombstone key).seed key
  let entry : Entry C V := match moveFrom with
    | some source => .move source key patch
    | none => .patch patch
  (item.setEntries key (item.entriesAt key ++ [entry])).track key

/-- `truncate`: every row of every key is gone, the destination's own included. -/
def TableWork.truncate (item : TableWork C V) : TableWork C V :=
  { item with
    truncated := true
    truncates := item.truncates + 1
    events := item.events + 1
    truncateMarks := item.truncateMarks ++ [(item.live.values.map concrete).sum]
    live := ∅
    multi := ∅
    startPresent := ∅
    deletedKeys := ∅ }

/-! ### Attribution -/

section Attribution

variable [ColumnValue V]

/-- `_variant_null_value`. -/
def variantNullValue (value : Option V) (descriptor : Option Descriptor) : Bool :=
  match descriptor with
  | none => false
  | some d => d.jsonb && match value with
    | none => true
    | some v => ColumnValue.isJsonNull v

/-- Whether a typed sidecar says that the column carries no value. -/
def FieldState.isHidden : FieldState V → Bool
  | .unchangedToast => true
  | .absent => true
  | _ => false

/-- `_distinguishing`: the before-image columns that can tell two rows under one key apart. -/
def distinguishing (item : TableWork C V) (before : Option (Image C V))
    (descriptors : Dict C Descriptor) (typed : Option (TypedImage C V)) : Image C V :=
  (before.getD ∅).filterMapValues fun column value =>
    let hidden := ((typed.getD ∅).get? column).any fun f => f.state.isHidden
    if hidden || column ∈ item.keyColumns ||
        isStructuralMarker value ((descriptors.get? column).or (item.descriptors.get? column)) then
      none
    else some value

/-- The patch of a concrete entry binds every column of the image to the image's value. -/
def RowPatch.matchesImage (p : RowPatch C V) (image : Image C V) : Bool :=
  image.items.all fun q => (p.field q.1).state.bound? = some q.2

/-- `_matches`. -/
def matchesEntry (probe : Probe C V) (item : TableWork C V) (key : Token V) (image : Image C V) :
    Entry C V → Bool
  | .start => (probe.startMatches item key image).getD false
  | .patch p => p.matchesImage image
  | .move _ _ p => p.matchesImage image

/-- The kinds of operation `_target_entry` attributes. -/
inductive Attributed
  | update
  | delete
deriving DecidableEq, Repr

/-- The word for the operation in an error text. -/
def Attributed.text : Attributed → String
  | .update => "update"
  | .delete => "delete"

/-- `_unattributable`. -/
def unattributable {α : Type} (key : Token V) (what : Attributed) (why : String) :
    Fold C V α := do
  let item ← get
  throw (item.refusal .ambiguousDelete (": cannot attribute a " ++ what.text ++
    " identity (opaque fold digest) - " ++ why ++ ". " ++
    toString (item.entriesAt key).length ++ " row(s) wear that key inside this source " ++
    "transaction and the before-image does not say which one this event describes. " ++
    "Folding a guess would durably commit a wrong answer, so the commit group is " ++
    "refused and replays instead (ADR 0001 §18/A35). A deferred unique constraint " ++
    "requires REPLICA IDENTITY FULL, which supplies the image this needs."))

/-- Among the entries that match a before-image: the destination's own row if it is one, else the
first. -/
def choose (entries : List (Entry C V)) (matched : List ℕ) : Option ℕ :=
  match matched with
  | [] => none
  | [index] => some index
  | index :: _ => some ((matched.find? fun i => entries[i]? = some .start).getD index)

/-- A before-image, as an event carries it. -/
structure BeforeImage (C V : Type) where
  image : Option (Image C V)
  descriptors : Dict C Descriptor
  typed : Option (TypedImage C V)

/-- The before-image of an event. -/
def PendingRecord.beforeImage (event : PendingRecord C V) : BeforeImage C V :=
  ⟨event.before, event.beforeDescriptors, event.typedBefore⟩

/-- Whether a non-key column of the before-image may be SQL NULL or the JSON null document. -/
def collapsedVariantNull (item : TableWork C V) (before : BeforeImage C V) : Bool :=
  (before.image.getD ∅).items.any fun p =>
    p.1 ∉ item.keyColumns &&
      variantNullValue p.2 ((before.descriptors.get? p.1).or (item.descriptors.get? p.1))

/-- The part of `_target_entry` for two or more entries. -/
def attributeAmong (probe : Probe C V) (key : Token V) (before : BeforeImage C V)
    (what : Attributed) : Fold C V (Option ℕ) := do
  let item ← get
  let entries := item.entriesAt key
  let image := distinguishing item before.image before.descriptors before.typed
  if collapsedVariantNull item before ∧ 1 ≤ concrete entries then
    unattributable key what
      "the runtime collapses SQL NULL and JSONB root null into one null value"
  else if image.items = [] then
    if concrete entries ≤ 1 then pure none
    else unattributable key what "no distinguishing columns"
  else
    let matched := (List.range entries.length).filter fun i =>
      (entries[i]?).any (matchesEntry probe item key image)
    match choose entries matched with
    | some index => pure (some index)
    | none => unattributable key what "no candidate matches"

/-- `_target_entry`: the index of the entry the before-image describes, or `none` for "collapse
the key". -/
def targetEntry (probe : Probe C V) (key : Token V) (before : BeforeImage C V)
    (what : Attributed) : Fold C V (Option ℕ) := do
  if 1 < ((← get).entriesAt key).length then
    modify (·.resolveStart probe key)
  match (← get).entriesAt key with
  | [] => pure none
  | [_] => pure (some 0)
  | _ => attributeAmong probe key before what

end Attribution

/-! ### Updates and deletes -/

variable [ColumnValue V]

/-- The entry an update leaves in place of the one it found. -/
def Entry.updated (patch : RowPatch C V) : Entry C V → Entry C V
  | .start => .patch patch
  | .patch p => .patch (p.compose patch)
  | .move source target p => .move source target (p.compose patch)

/-- `complete_after_image` of `_update`: every column is bound. The applier's columns make the
field map of an event's patch non-empty. -/
def RowPatch.bindsEveryField (p : RowPatch C V) : Bool :=
  (p.rowMeta.isSome || !p.fields.isEmpty) && p.fields.values.all fun f => f.state.bound?.isSome

/-- Resolve a lone `START` before attribution, as `_update` and `_remove` do. -/
def TableWork.settleStart (probe : Probe C V) (key : Token V) (item : TableWork C V) :
    TableWork C V :=
  let item := item.seed key
  if item.entriesAt key = [.start] then item.resolveStart probe key else item

/-- `_update`: the same physical row, with new values. -/
def update (probe : Probe C V) (key : Token V) (patch : RowPatch C V)
    (before : BeforeImage C V) : Fold C V Unit := do
  let item ← get
  if key ∈ item.deletedKeys then
    missingToastBase "UPDATE follows DELETE for the same physical key"
  else
    set (item.settleStart probe key)
    if ((← get).entriesAt key) = [] then
      if (← get).incremental && (patch.complete || patch.bindsEveryField) then
        -- a live update beats the first incremental read of its key: the image is the base
        modify (·.place key { patch with complete := true } none)
      else missingToastBase "UPDATE has no destination base row"
    else
      match ← targetEntry probe key before .update with
      | none => modify fun item => (item.setEntries key [.patch patch]).track key
      | some index => modify fun item =>
        (item.setEntries key ((item.entriesAt key).modify index (Entry.updated patch))).track key

/-- `_remove`: take away the row a delete names; returns the entry taken. -/
def remove (probe : Probe C V) (key : Token V) (before : BeforeImage C V) :
    Fold C V (Option (Entry C V)) := do
  modify (·.settleStart probe key)
  let index ← targetEntry probe key before .delete
  let entries := (← get).entriesAt key
  let left := match index with
    | none => []
    | some i => entries.eraseIdx i
  modify fun item => item.setEntries key left
  if left = [] then
    modify (·.addTombstone key)
  modify (·.track key)
  return index.bind fun i => entries[i]?

/-- The new-key half of a key change: the removed row, patched, is placed under its new key. -/
def TableWork.placeMoved (key old : Token V) (patch : RowPatch C V)
    (removed : Option (Entry C V)) (item : TableWork C V) : TableWork C V :=
  match removed with
  | some (.move source _ p) => item.place key (p.compose patch) (some source)
  | some (.patch p) => item.place key (p.compose patch) none
  | some .start => item.place key patch (some old)
  | none => item.place key patch (some old)

/-! ### Fold keys -/

variable [ToString C]

/-- One component of `_key_token`. -/
def keyComponent (descriptors : Dict C Descriptor) (updateNative : Bool)
    (p : C × Option V) : Fold C V (String × Option V) := do
  let item ← get
  match (descriptors.get? p.1).or (item.descriptors.get? p.1) with
  | none => throw (item.refusal .schemaEvolutionRefused
      (": catalog descriptor is missing for key column " ++ toString p.1 ++
        "; the source unit is held for automatic retry"))
  | some d =>
    if updateNative then
      set { item with descriptors := item.descriptors.set p.1 d }
      if d.hasNativeType true then
        modify fun item => { item with nativeColumns := item.nativeColumns.set p.1 d }
      else throw (item.refusal .schemaEvolutionRefused ("." ++ toString p.1 ++
        ": source descriptor is not deliverable through the native destination"))
    return (d.fingerprint, p.2)

/-- `_key_token`: the fold key of the key column values of an event. The identity column
`cdcf_event_id` never has a catalog descriptor. -/
def keyToken (values : C → Option V) (descriptors : Dict C Descriptor) (updateNative : Bool) :
    Fold C V (Token V) := do
  let item ← get
  if item.keyColumns = [] then
    throw (item.refusal .schemaEvolutionRefused
      (": catalog descriptor is missing for key column cdcf_event_id" ++
        "; the source unit is held for automatic retry"))
  else (item.keyColumns.map fun c => (c, values c)).mapM (keyComponent descriptors updateNative)

/-- `(image or {}).get(column)`. -/
def columnOf (image : Option (Image C V)) (c : C) : Option V := ((image.getD ∅).get? c).join

/-! ### Collecting an event -/

/-- Declare one column of an event's image at its native type. -/
def declareField (descriptors : Dict C Descriptor) (p : C × FieldValue V) : Fold C V Unit := do
  let item ← get
  match p.2.descriptor.or (descriptors.get? p.1) with
  | some d =>
    if p.2.state ≠ .absent ∧
        (item.nativeColumns.get? p.1).map (·.fingerprint) ≠ some d.fingerprint then
      set { item with descriptors := item.descriptors.set p.1 d }
      if d.hasNativeType (p.1 ∈ item.keyColumns) then
        modify fun item => { item with nativeColumns := item.nativeColumns.set p.1 d }
      else throw (item.refusal .admissionError ("." ++ toString p.1))
  | none =>
    if p.2.state.bound?.isSome then
      throw (item.refusal .schemaEvolutionRefused
        (": catalog descriptor is missing for source column " ++ toString p.1 ++
          "; the source unit is held for automatic retry"))

/-- `item.events += 1`. -/
def TableWork.countEvent (item : TableWork C V) : TableWork C V :=
  { item with events := item.events + 1 }

/-- `cdc_keys.add`. -/
def TableWork.addCdcKey (item : TableWork C V) (key : Token V) : TableWork C V :=
  { item with cdcKeys := insert key item.cdcKeys }

/-- The incremental branch of `collect`: a read gives way to everything that touched its key. -/
def collectIncremental (probe : Probe C V) (key : Token V) (patch : RowPatch C V) :
    Fold C V Unit := do
  modify (·.settleStart probe key)
  let item ← get
  if key ∈ item.cdcKeys ∨ key ∈ item.deletedKeys ∨ key ∈ item.incrementalKeys ∨
      item.entriesAt key ≠ [] then
    pure ()
  else
    modify fun item =>
      { item with incrementalKeys := insert key item.incrementalKeys }.place key patch none

/-- The delete branch of `collect`. -/
def collectDelete (probe : Probe C V) (event : PendingRecord C V) (eventId : String) :
    Fold C V Unit := do
  let key ← keyToken (columnOf event.before) event.beforeDescriptors false
  let _ ← remove probe key event.beforeImage
  modify fun item =>
    let effect : KeylessOperation C V :=
      { keylessOperation event eventId with
        before := event.before, deleteMode := item.deleteMode }
    { item with
      softDeletes := if item.deleteMode = .soft then item.softDeletes.set key effect
        else item.softDeletes
      deleteEffects := item.deleteEffects.set eventId effect }

/-- The update branch of `collect`. -/
def collectUpdate (probe : Probe C V) (event : PendingRecord C V) (key : Token V)
    (patch : RowPatch C V) : Fold C V Unit := do
  let before := event.before.getD ∅
  if before.items = [] then update probe key patch event.beforeImage
  else match event.key with
    | none => throw { errorClass := .typeError }
    | some keyImage =>
      if keyImage.keys.all before.contains then
        let old ← keyToken (columnOf event.before) event.beforeDescriptors false
        if old = key then update probe key patch event.beforeImage
        else
          let removed ← remove probe old event.beforeImage
          modify fun item => (item.addCdcKey old).placeMoved key old patch removed
      else update probe key patch event.beforeImage

/-- The keyed part of `collect`. -/
def collectKeyed (probe : Probe C V) (event : PendingRecord C V) (eventId : String)
    (patch : RowPatch C V) : Fold C V Unit := do
  let key ← keyToken (columnOf event.key)
    (event.afterDescriptors.overlay event.keyDescriptors fun _ _ => true) true
  if event.incremental then collectIncremental probe key patch
  else
    modify (·.addCdcKey key)
    if event.op = some .delete then collectDelete probe event eventId
    else if event.op = some .update then collectUpdate probe event key patch
    else modify (·.place key patch none)

/-- `collect`, for an event with its patch. -/
def collect (probe : Probe C V) (event : PendingRecord C V) (eventId : String)
    (patch : RowPatch C V) : Fold C V Unit := do
  if event.kind = .truncate then
    modify fun item =>
      { item.truncate with
        keylessOperations :=
          item.keylessOperations ++ [{ eventId := eventId, operation := some .truncate }] }
  else
    let descriptors :=
      if event.op = some .delete then event.beforeDescriptors else event.afterDescriptors
    forM patch.fields.items (declareField descriptors)
    modify TableWork.countEvent
    if patch.hasMarker && (event.op = some .create || event.op = some .read) then
      missingToastBase "a sparse TOAST patch has no verified physical-row base"
    else if (← get).keyless then collectKeyless probe event eventId patch
    else collectKeyed probe event eventId patch

/-- `end_transaction`: no key may end a source transaction with two rows. -/
def endTransaction : Fold C V Unit := do
  let item ← get
  if item.multi ≠ ∅ then
    throw (item.refusal .ambiguousDelete (": " ++ toString item.multi.card ++
      " identity key(s) end a source transaction wearing two or more rows. A unique key admits " ++
      "one row per key at a transaction boundary, so this fold would durably commit a " ++
      "duplicate (ADR 0001 §18/A35)."))

/-- The fold of one record into the item of its table: `work_for`, then `truncate` or `collect`
with the record's patch. -/
def foldEvent (probe : Probe C V) (commitId : ℕ) (record : PendingRecord C V × String) :
    Fold C V Unit := do
  observe record.1 none
  if record.1.kind = .truncate then modify TableWork.truncate
  else
    let snapshot := (← get).snapshot
    collect probe record.1 record.2 (RowPatch.fromEvent record.1 commitId record.2 snapshot)

/-- The fold of the records of one source transaction. -/
def foldTransaction (probe : Probe C V) (commitId : ℕ)
    (records : List (PendingRecord C V × String)) : Fold C V Unit := do
  forM records (foldEvent probe commitId)
  endTransaction

end CdcFlight
