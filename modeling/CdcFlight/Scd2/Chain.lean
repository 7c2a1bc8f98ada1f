import CdcFlight.Lib.Next
import CdcFlight.Scd2.Apply
import CdcFlight.Source.Records

/-!
# The version chain of an identity

The versions of an identity are to tile its lifetime: each ends where the next event that affects
the identity starts, whether this is a version of the identity or a truncate of the table, and
only the last one is open and current. Row events are put in by their token; the end point of a
late one is taken from the next version of the identity and does not look at the markers of
truncates, and a truncate closes whatever is current without comparing tokens. The chain is kept
by every call that does not run into a truncate out of order.

## Main definitions

* `CdcFlight.Scd2.affecting`: the tokens of the events that affect an identity.
* `CdcFlight.Scd2.Chained`: the invariant of the history table.
* `CdcFlight.Scd2.Tiled`: what a reader of the history relies on.
* `CdcFlight.Scd2.InTruncateOrder`: a call that is in order with the recorded truncates.

## Main results

* `CdcFlight.Scd2.Chained.insert`: adding one row that affects some identities.
* `CdcFlight.Scd2.Chained.call`: one call.
* `CdcFlight.Scd2.tiled_of_inTruncateOrder`: every sequence of calls in order.
-/

namespace CdcFlight.Scd2

open Lib

variable {C V : Type} [DecidableEq C] [DecidableEq V]
  {rows rows' : List (HistoryRow C V)} {token : String} {identity : SourceIdentity C V}

/-! ### Affecting events -/

/-- A row version, as opposed to the marker of a truncate. -/
def HistoryRow.IsVersion (row : HistoryRow C V) : Prop := row.operation ≠ .truncate

/-- The event of a row affects an identity: it is one of its versions, or a truncate. -/
def HistoryRow.Affects (row : HistoryRow C V) (identity : SourceIdentity C V) : Prop :=
  row.sourceIdentity = identity ∨ row.operation = .truncate

instance (row : HistoryRow C V) (identity : SourceIdentity C V) :
    Decidable (row.Affects identity) :=
  inferInstanceAs (Decidable (_ ∨ _))

/-- The tokens of the events that affect an identity. -/
def affecting (rows : List (HistoryRow C V)) (identity : SourceIdentity C V) : Finset String :=
  ((rows.filter (·.Affects identity)).map (·.validFrom)).toFinset

theorem mem_affecting {t : String} :
    t ∈ affecting rows identity ↔ ∃ row ∈ rows, row.Affects identity ∧ row.validFrom = t := by
  simp [affecting, and_assoc]

/-- A row, closed at a token if the flag is set. -/
def HistoryRow.closeIf (row : HistoryRow C V) (closed : Bool) (token : String) : HistoryRow C V :=
  if closed then row.close token else row

section CloseIf

variable (row : HistoryRow C V) (closed : Bool) (token : String)

omit [DecidableEq C] [DecidableEq V]

@[simp] theorem HistoryRow.closeIf_eventId : (row.closeIf closed token).eventId = row.eventId := by
  cases closed <;> rfl

@[simp] theorem HistoryRow.closeIf_sourceIdentity :
    (row.closeIf closed token).sourceIdentity = row.sourceIdentity := by
  cases closed <;> rfl

@[simp] theorem HistoryRow.closeIf_validFrom :
    (row.closeIf closed token).validFrom = row.validFrom := by
  cases closed <;> rfl

@[simp] theorem HistoryRow.closeIf_operation :
    (row.closeIf closed token).operation = row.operation := by
  cases closed <;> rfl

@[simp] theorem HistoryRow.closeIf_isVersion :
    (row.closeIf closed token).IsVersion ↔ row.IsVersion := by
  cases closed <;> rfl

@[simp] theorem HistoryRow.closeIf_affects (identity : SourceIdentity C V) :
    (row.closeIf closed token).Affects identity ↔ row.Affects identity := by
  cases closed <;> rfl

end CloseIf

/-- The rows that satisfy `p`, closed at a token; the others as they are. -/
def closeWhere (p : HistoryRow C V → Bool) (rows : List (HistoryRow C V)) (token : String) :
    List (HistoryRow C V) :=
  rows.map fun row => row.closeIf (p row) token

omit [DecidableEq C] [DecidableEq V] in
theorem closeRow_eq_closeWhere (rows : List (HistoryRow C V)) (eventId token : String) :
    closeRow rows eventId token =
      closeWhere (fun row => decide (row.eventId = eventId)) rows token := by
  simp [closeRow, closeWhere, HistoryRow.closeIf]

omit [DecidableEq C] [DecidableEq V] in
theorem closeWhere_false (rows : List (HistoryRow C V)) (token : String) :
    closeWhere (fun _ => false) rows token = rows := by
  simp [closeWhere, HistoryRow.closeIf]

omit [DecidableEq C] [DecidableEq V] in
/-- A row after the insertion is the new row, or a row of the chain, possibly closed. -/
theorem mem_closeWhere_append {p : HistoryRow C V → Bool} {row v : HistoryRow C V}
    (hv : v ∈ closeWhere p rows token ++ [row]) :
    v = row ∨ ∃ row' ∈ rows, v = row'.closeIf (p row') token := by
  rcases List.mem_append.1 hv with hv | hv
  · obtain ⟨row', hrow', rfl⟩ := List.mem_map.1 hv
    exact Or.inr ⟨row', hrow', rfl⟩
  · exact Or.inl (List.mem_singleton.1 hv)

theorem affecting_closeWhere (p : HistoryRow C V → Bool) (rows : List (HistoryRow C V))
    (token : String) (identity : SourceIdentity C V) :
    affecting (closeWhere p rows token) identity = affecting rows identity := by
  ext t
  simp [mem_affecting, closeWhere]

theorem affecting_append_of_affects {row : HistoryRow C V} (h : row.Affects identity) :
    affecting (rows ++ [row]) identity = insert row.validFrom (affecting rows identity) := by
  ext t
  simp only [mem_affecting, Finset.mem_insert, List.mem_append, List.mem_singleton]
  constructor
  · rintro ⟨row', hrow' | rfl, haffects, rfl⟩
    · exact Or.inr ⟨row', hrow', haffects, rfl⟩
    · exact Or.inl rfl
  · rintro (rfl | ⟨row', hrow', haffects, rfl⟩)
    · exact ⟨row, Or.inr rfl, h, rfl⟩
    · exact ⟨row', Or.inl hrow', haffects, rfl⟩

theorem affecting_append_of_not_affects {row : HistoryRow C V} (h : ¬ row.Affects identity) :
    affecting (rows ++ [row]) identity = affecting rows identity := by
  ext t
  simp only [mem_affecting, List.mem_append, List.mem_singleton]
  constructor
  · rintro ⟨row', hrow' | rfl, haffects, rfl⟩
    · exact ⟨row', hrow', haffects, rfl⟩
    · exact absurd haffects h
  · rintro ⟨row', hrow', haffects, rfl⟩
    exact ⟨row', Or.inl hrow', haffects, rfl⟩

/-! ### The invariant -/

/-- **The chain.** Every version ends at the next event that affects its identity, and is current
exactly when there is none. Event ids are unique, versions of one identity start at different
tokens, and the versions are the rows of a row identity. -/
structure Chained (rows : List (HistoryRow C V)) : Prop where
  eventIds : (rows.map (·.eventId)).Nodup
  starts : ∀ row ∈ rows, ∀ row' ∈ rows, row.IsVersion →
    row.sourceIdentity = row'.sourceIdentity → row.validFrom = row'.validFrom → row = row'
  isVersion_iff : ∀ row ∈ rows, row.IsVersion ↔ ∃ key, row.sourceIdentity = .row key
  ends : ∀ row ∈ rows, row.IsVersion →
    row.validTo = nextAbove (affecting rows row.sourceIdentity) row.validFrom
  current_iff : ∀ row ∈ rows, row.IsVersion → (row.current = true ↔ row.validTo = ⊤)

theorem Chained.nil : Chained ([] : List (HistoryRow C V)) where
  eventIds := List.nodup_nil
  starts := List.forall_mem_nil _
  isVersion_iff := List.forall_mem_nil _
  ends := List.forall_mem_nil _
  current_iff := List.forall_mem_nil _

namespace Chained

/-- Event ids identify the rows. -/
theorem eq_of_eventId (h : Chained rows) {row row' : HistoryRow C V} (hrow : row ∈ rows)
    (hrow' : row' ∈ rows) (hid : row.eventId = row'.eventId) : row = row' :=
  List.inj_on_of_nodup_map h.eventIds hrow hrow' hid

/-- A row that extends a chain, closing the rows that satisfy `p`: its token lies in the intervals
of the rows it closes, and in no other interval of an identity it affects. -/
structure Extends (rows : List (HistoryRow C V)) (p : HistoryRow C V → Bool)
    (row : HistoryRow C V) : Prop where
  eventId_free : ∀ row' ∈ rows, row'.eventId ≠ row.eventId
  isVersion_iff : row.IsVersion ↔ ∃ key, row.sourceIdentity = .row key
  start_free : ∀ row' ∈ rows, row'.sourceIdentity = row.sourceIdentity → row'.IsVersion →
    row'.validFrom ≠ row.validFrom
  ends : row.IsVersion →
    row.validTo = nextAbove (affecting rows row.sourceIdentity) row.validFrom
  current_iff : row.IsVersion → (row.current = true ↔ row.validTo = ⊤)
  closed : ∀ row' ∈ rows, row'.IsVersion → p row' = true →
    row.Affects row'.sourceIdentity ∧ row'.validFrom < row.validFrom ∧ row.validFrom ≤ row'.validTo
  kept : ∀ row' ∈ rows, row'.IsVersion → p row' = false → row.Affects row'.sourceIdentity →
    row.validFrom ≤ row'.validFrom ∨ row'.validTo ≤ row.validFrom

variable {p : HistoryRow C V → Bool} {row : HistoryRow C V}

private theorem nodup_insert (h : Chained rows) (hrow : Extends rows p row) :
    ((closeWhere p rows row.validFrom ++ [row]).map (·.eventId)).Nodup := by
  have hmap : (closeWhere p rows row.validFrom).map (·.eventId) = rows.map (·.eventId) := by
    simp [closeWhere]
  rw [List.map_append, List.map_singleton, hmap]
  refine List.nodup_append.2 ⟨h.eventIds, List.nodup_singleton _, ?_⟩
  intro id hin id' hin'
  obtain ⟨row', hrow', rfl⟩ := List.mem_map.1 hin
  rw [List.mem_singleton.1 hin']
  exact hrow.eventId_free row' hrow'

/-- The end of a row of the chain, once the new row is in. -/
private theorem ends_insert (h : Chained rows) (hrow : Extends rows p row) {row' : HistoryRow C V}
    (hrow' : row' ∈ rows) (hv : row'.IsVersion) :
    (row'.closeIf (p row') row.validFrom).validTo =
      nextAbove (affecting (closeWhere p rows row.validFrom ++ [row]) row'.sourceIdentity)
        row'.validFrom := by
  by_cases haffects : row.Affects row'.sourceIdentity
  · rw [affecting_append_of_affects haffects, affecting_closeWhere, HistoryRow.closeIf]
    split_ifs with hp
    · obtain ⟨-, hlt, hle⟩ := hrow.closed row' hrow' hv hp
      rw [nextAbove_insert_of_lt hlt (h.ends row' hrow' hv ▸ hle)]
      rfl
    · have hor := hrow.kept row' hrow' hv (by simpa using hp) haffects
      rw [h.ends row' hrow' hv] at hor ⊢
      exact (nextAbove_insert_of_le_or hor).symm
  · rw [affecting_append_of_not_affects haffects, affecting_closeWhere, HistoryRow.closeIf]
    split_ifs with hp
    · exact absurd (hrow.closed row' hrow' hv hp).1 haffects
    · exact h.ends row' hrow' hv

/-- **One more row** extends the chain. -/
theorem insert (h : Chained rows) (hrow : Extends rows p row) :
    Chained (closeWhere p rows row.validFrom ++ [row]) where
  eventIds := h.nodup_insert hrow
  starts := by
    intro v hv w hw hisv hident hfrom
    rcases mem_closeWhere_append hv with rfl | ⟨a, ha, rfl⟩ <;>
      rcases mem_closeWhere_append hw with rfl | ⟨b, hb, rfl⟩
    · rfl
    · simp only [HistoryRow.closeIf_sourceIdentity, HistoryRow.closeIf_validFrom] at hident hfrom
      have hb' : b.IsVersion := by
        rw [h.isVersion_iff b hb, ← hident]
        exact hrow.isVersion_iff.1 hisv
      exact absurd hfrom.symm (hrow.start_free b hb hident.symm hb')
    · simp only [HistoryRow.closeIf_sourceIdentity, HistoryRow.closeIf_validFrom,
        HistoryRow.closeIf_isVersion] at hident hfrom hisv
      exact absurd hfrom (hrow.start_free a ha hident hisv)
    · simp only [HistoryRow.closeIf_sourceIdentity, HistoryRow.closeIf_validFrom,
        HistoryRow.closeIf_isVersion] at hident hfrom hisv
      rw [h.starts a ha b hb hisv hident hfrom]
  isVersion_iff := by
    intro v hv
    rcases mem_closeWhere_append hv with rfl | ⟨row', hrow', rfl⟩
    · exact hrow.isVersion_iff
    · simpa using h.isVersion_iff row' hrow'
  ends := by
    intro v hv hisv
    rcases mem_closeWhere_append hv with rfl | ⟨row', hrow', rfl⟩
    · rw [affecting_append_of_affects (Or.inl rfl), affecting_closeWhere,
        nextAbove_insert_of_le le_rfl]
      exact hrow.ends hisv
    · rw [HistoryRow.closeIf_sourceIdentity, HistoryRow.closeIf_validFrom]
      exact h.ends_insert hrow hrow' (by simpa using hisv)
  current_iff := by
    intro v hv hisv
    rcases mem_closeWhere_append hv with rfl | ⟨row', hrow', rfl⟩
    · exact hrow.current_iff hisv
    · rw [HistoryRow.closeIf_isVersion] at hisv
      rw [HistoryRow.closeIf]
      split_ifs with hp
      · simp [HistoryRow.close]
      · exact h.current_iff row' hrow' hisv

/-! ### Row events -/

/-- Nothing affects an identity after the start of its current version. -/
theorem affecting_le_of_current (h : Chained rows) (hrow : row ∈ rows) (hv : row.IsVersion)
    (hcurrent : row.current = true) {t : String} (ht : t ∈ affecting rows row.sourceIdentity) :
    t ≤ row.validFrom := by
  have htop := (h.current_iff row hrow hv).1 hcurrent
  rw [h.ends row hrow hv] at htop
  exact nextAbove_eq_top_iff.1 htop t ht

/-- Where every version of an identity is closed, the last event that affects it is a truncate. -/
theorem affecting_le_of_closed (h : Chained rows) {key : Finset (C × Option V)}
    {boundary t : String}
    (hclosed : ∀ row ∈ rows, row.sourceIdentity = .row key → row.current = false)
    (hboundary : ∀ row ∈ rows, row.operation = .truncate → row.validFrom ≤ boundary)
    (ht : t ∈ affecting rows (.row key)) : t ≤ boundary := by
  obtain ⟨last, hlast⟩ := Finset.max_of_mem ht
  have hle : t ≤ last := Finset.le_max_of_eq ht hlast
  refine hle.trans ?_
  obtain ⟨row, hrow, haffects, rfl⟩ := mem_affecting.1 (Finset.mem_of_max hlast)
  rcases haffects with hid | hmarker
  · have hv : row.IsVersion := (h.isVersion_iff row hrow).2 ⟨key, hid⟩
    have htop : row.validTo = ⊤ := by
      rw [h.ends row hrow hv, hid]
      exact nextAbove_eq_top_iff.2 fun y hy => Finset.le_max_of_eq hy hlast
    have hcurrent := (h.current_iff row hrow hv).2 htop
    rw [hclosed row hrow hid] at hcurrent
    simp at hcurrent
  · exact hboundary row hrow hmarker

/-- A version that starts before another version of its identity ends by its start. -/
theorem validTo_le (h : Chained rows) {row' : HistoryRow C V} (hrow : row ∈ rows)
    (hv : row.IsVersion) (hrow' : row' ∈ rows) (haffects : row'.Affects row.sourceIdentity)
    (hlt : row.validFrom < row'.validFrom) : row.validTo ≤ row'.validFrom := by
  rw [h.ends row hrow hv]
  exact nextAbove_le (mem_affecting.2 ⟨row', hrow', haffects, rfl⟩) hlt

end Chained

/-- The row event is in order with the recorded truncates: the first version of an identity is not
before one, and a version between two others does not share their interval with one. -/
def Event.InTruncateOrder (event : Event C V) (rows : List (HistoryRow C V)) (token : String) :
    Prop :=
  ((∀ row ∈ rows, row.sourceIdentity ≠ event.sourceIdentity) →
    ∀ row ∈ rows, row.operation = .truncate → row.validFrom ≤ token) ∧
  ∀ pred ∈ rows, ∀ succ ∈ rows, IsPredecessor rows event.sourceIdentity token pred →
    IsSuccessor rows event.sourceIdentity token succ → ∀ row ∈ rows, row.operation = .truncate →
      ¬ (pred.validFrom < row.validFrom ∧ row.validFrom < token) ∧
      ¬ (token < row.validFrom ∧ row.validFrom < succ.validFrom)

instance (event : Event C V) (rows : List (HistoryRow C V)) (token : String) :
    Decidable (event.InTruncateOrder rows token) :=
  inferInstanceAs (Decidable (_ ∧ _))

/-- The truncate is in order with the recorded versions: after the start of every current one, and
in the interval of no closed one. -/
def TruncateInOrder (rows : List (HistoryRow C V)) (token : String) : Prop :=
  (∀ row ∈ rows, row.current = true → row.validFrom < token) ∧
  ∀ row ∈ rows, row.IsVersion → row.current = false →
    ¬ (row.validFrom < token ∧ token < row.validTo)

instance (row : HistoryRow C V) : Decidable row.IsVersion :=
  inferInstanceAs (Decidable (_ ≠ _))

instance (rows : List (HistoryRow C V)) (token : String) : Decidable (TruncateInOrder rows token) :=
  inferInstanceAs (Decidable (_ ∧ _))

/-- The rows a place closes. -/
def Splice.closesRow (place : Splice C V) (row : HistoryRow C V) : Bool :=
  match place.closes with
  | none => false
  | some eventId => decide (row.eventId = eventId)

theorem Splice.result_eq (place : Splice C V) (rows : List (HistoryRow C V)) (event : Event C V)
    (token : String) (raw encoded : Image C V) :
    place.result rows event token raw encoded = closeWhere place.closesRow rows token ++
      [event.historyRow token raw encoded place.validTo place.isCurrent] := by
  cases place with
  | fresh => exact congrArg (· ++ _) (closeWhere_false rows token).symm
  | after current => exact congrArg (· ++ _) (closeRow_eq_closeWhere rows current.eventId token)
  | between pred validTo => exact congrArg (· ++ _) (closeRow_eq_closeWhere rows pred.eventId token)

section RowEvent

variable {bundle : Bundle C V} {event : Event C V} {raw encoded : Image C V} {place : Splice C V}

omit [DecidableEq C] [DecidableEq V] in
@[simp] theorem RowOperation.op_ne_truncate (operation : RowOperation) :
    operation.op ≠ .truncate := by
  cases operation <;> decide

theorem Event.historyRow_affects {validTo : WithTop String} {current : Bool} :
    (event.historyRow token raw encoded validTo current).Affects identity ↔
      event.sourceIdentity = identity := by
  simp [HistoryRow.Affects, Event.historyRow]

/-- The rows of an identity other than the greatest one below a token lie outside it. -/
private theorem kept_of_greatest (h : Chained rows) {pred row : HistoryRow C V}
    (hpred : IsPredecessor rows event.sourceIdentity token pred) (hrow : row ∈ rows)
    (hv : row.IsVersion) (hid : row.sourceIdentity = event.sourceIdentity)
    (hne : row.eventId ≠ pred.eventId) :
    token ≤ row.validFrom ∨ row.validTo ≤ token := by
  rcases le_or_gt token row.validFrom with hle | hlt
  · exact Or.inl hle
  · have hne' : row.validFrom ≠ pred.validFrom := fun heq =>
      hne (congrArg _ (h.starts row hrow pred hpred.mem hv
        (hid.trans hpred.sourceIdentity.symm) heq))
    have hlt' : row.validFrom < pred.validFrom :=
      lt_of_le_of_ne (hpred.greatest row hrow hid hlt) hne'
    refine Or.inr ((h.validTo_le hrow hv hpred.mem
      (Or.inl (hpred.sourceIdentity.trans hid.symm)) hlt').trans ?_)
    exact WithTop.coe_le_coe.2 hpred.lt.le

/-- **A version at its place** extends the chain, if the event is in order with the truncates. -/
theorem Chained.extends_of_written (h : Chained rows)
    (hw : Written bundle event token rows rows' place raw encoded)
    (horder : event.InTruncateOrder rows token) :
    Chained.Extends rows place.closesRow
      (event.historyRow token raw encoded place.validTo place.isCurrent) := by
  have hversion : ∀ row ∈ rows, row.sourceIdentity = event.sourceIdentity → row.IsVersion :=
    fun row hrow hid => (h.isVersion_iff row hrow).2 ⟨_, hid⟩
  -- What depends on the place: the end of the new version, and the intervals its token falls into.
  suffices hplace : place.validTo = nextAbove (affecting rows event.sourceIdentity) token ∧
      (place.isCurrent = true ↔ place.validTo = ⊤) ∧
      (∀ row ∈ rows, place.closesRow row = true → row.sourceIdentity = event.sourceIdentity ∧
        row.validFrom < token ∧ token ≤ row.validTo) ∧
      ∀ row ∈ rows, place.closesRow row = false → row.sourceIdentity = event.sourceIdentity →
        token ≤ row.validFrom ∨ row.validTo ≤ token by
    obtain ⟨hend, hcurrent, hclosed, hkept⟩ := hplace
    refine ⟨hw.eventId_free, ?_, fun row hrow hid _ => hw.exact_free row hrow hid, fun _ => hend,
      fun _ => hcurrent, fun row hrow _ hp => ?_, fun row hrow _ hp haffects => ?_⟩
    · simp [HistoryRow.IsVersion, Event.historyRow, Event.sourceIdentity]
    · obtain ⟨hid, hlt, hle⟩ := hclosed row hrow hp
      exact ⟨Event.historyRow_affects.2 hid.symm, hlt, hle⟩
    · exact hkept row hrow hp (Event.historyRow_affects.1 haffects).symm
  cases hw.placed with
  | first hnone hcreates =>
    refine ⟨(nextAbove_eq_top_iff.2 fun t ht => ?_).symm,
      by simp [Splice.isCurrent, Splice.validTo],
      fun row _ hp => by simp [Splice.closesRow, Splice.closes] at hp,
      fun row hrow _ hid => absurd hid (hnone row hrow)⟩
    obtain ⟨row, hrow, hid | hmarker, rfl⟩ := mem_affecting.1 ht
    · exact absurd hid (hnone row hrow)
    · exact horder.1 hnone row hrow hmarker
  | restart hclosed hcreates hboundary hlt =>
    have hmax := (List.max?_eq_some_iff.1 hboundary).2
    have hbelow : ∀ t ∈ affecting rows event.sourceIdentity, t ≤ token := fun t ht =>
      (h.affecting_le_of_closed hclosed (fun row hrow hmarker => hmax _ (List.mem_map.2
        ⟨row, List.mem_filter.2 ⟨hrow, by simpa using hmarker⟩, rfl⟩)) ht).trans hlt.le
    refine ⟨(nextAbove_eq_top_iff.2 hbelow).symm, by simp [Splice.isCurrent, Splice.validTo],
      fun row _ hp => by simp [Splice.closesRow, Splice.closes] at hp,
      fun row hrow _ hid => Or.inr ?_⟩
    have hv := hversion row hrow hid
    cases hto : row.validTo with
    | top =>
      have hcurrent := (h.current_iff row hrow hv).2 hto
      rw [hclosed row hrow hid] at hcurrent
      simp at hcurrent
    | coe t =>
      rw [h.ends row hrow hv, hid] at hto
      exact WithTop.coe_le_coe.2 (hbelow t (mem_of_nextAbove_eq hto).1)
  | after hmem hid hcurrent hlt hverified =>
    rename_i current
    have hv := hversion current hmem hid
    have hbelow : ∀ t ∈ affecting rows event.sourceIdentity, t ≤ current.validFrom := fun t ht =>
      h.affecting_le_of_current hmem hv hcurrent (hid ▸ ht)
    have hpred : IsPredecessor rows event.sourceIdentity token current :=
      ⟨hmem, hid, hlt, fun row hrow hid' _ =>
        hbelow _ (mem_affecting.2 ⟨row, hrow, Or.inl hid', rfl⟩)⟩
    refine ⟨(nextAbove_eq_top_iff.2 fun t ht => (hbelow t ht).trans hlt.le).symm,
      by simp [Splice.isCurrent, Splice.validTo], fun row hrow hp => ?_, fun row hrow hp hid' => ?_⟩
    · have hrow' : row = current := h.eq_of_eventId hrow hmem (by
        simpa [Splice.closesRow, Splice.closes] using hp)
      subst hrow'
      exact ⟨hid, hlt, (h.current_iff row hrow hv).1 hcurrent ▸ le_top⟩
    · exact kept_of_greatest h hpred hrow (hversion row hrow hid') hid' (by
        simpa [Splice.closesRow, Splice.closes] using hp)
  | between hpred hsucc hmem hid hcurrent hlt hverified =>
    rename_i pred succ current
    have hmarkers := horder.2 pred hpred.mem succ hsucc.mem hpred hsucc
    refine ⟨(nextAbove_eq_coe_iff.2 ⟨?_, hsucc.lt, fun t ht hlt' => ?_⟩).symm,
      by simp [Splice.isCurrent, Splice.validTo], fun row hrow hp => ?_, fun row hrow hp hid' => ?_⟩
    · exact mem_affecting.2 ⟨succ, hsucc.mem, Or.inl hsucc.sourceIdentity, rfl⟩
    · obtain ⟨row, hrow, hid' | hmarker, rfl⟩ := mem_affecting.1 ht
      · exact hsucc.least row hrow hid' hlt'
      · exact not_lt.1 fun hlt'' => (hmarkers row hrow hmarker).2 ⟨hlt', hlt''⟩
    · have hrow' : row = pred := h.eq_of_eventId hrow hpred.mem (by
        simpa [Splice.closesRow, Splice.closes] using hp)
      subst hrow'
      refine ⟨hpred.sourceIdentity, hpred.lt, ?_⟩
      rw [h.ends row hrow (hversion row hrow hpred.sourceIdentity), le_nextAbove_iff]
      intro t ht hlt'
      by_contra hlt''
      obtain ⟨row', hrow', hid' | hmarker, rfl⟩ := mem_affecting.1 ht
      · exact (hpred.greatest row' hrow' (hid'.trans hpred.sourceIdentity) (not_le.1 hlt'')).not_gt
          hlt'
      · exact (hmarkers row' hrow' hmarker).1 ⟨hlt', not_le.1 hlt''⟩
    · exact kept_of_greatest h hpred hrow (hversion row hrow hid') hid' (by
        simpa [Splice.closesRow, Splice.closes] using hp)

end RowEvent

/-! ### Calls -/

/-- A truncate in order extends the chain: it closes every current version. -/
theorem Chained.extends_of_truncate (h : Chained rows) {bundle : Bundle C V} {change : TableEvent}
    (hid : ∀ row ∈ rows, row.eventId ≠ change.identity.eventId)
    (horder : TruncateInOrder rows token) :
    Chained.Extends rows (·.current) (change.marker bundle token) where
  eventId_free := hid
  isVersion_iff := by simp [HistoryRow.IsVersion, TableEvent.marker, TableEvent.sourceIdentity]
  start_free := by
    intro row hrow hident hv
    obtain ⟨key, hkey⟩ := (h.isVersion_iff row hrow).1 hv
    rw [hkey] at hident
    cases hident
  ends hv := absurd rfl hv
  current_iff hv := absurd rfl hv
  closed row hrow hv hcurrent :=
    ⟨Or.inr rfl, horder.1 row hrow hcurrent, (h.current_iff row hrow hv).1 hcurrent ▸ le_top⟩
  kept row hrow hv hcurrent _ := by
    by_contra hin
    rw [not_or, not_le, not_le] at hin
    exact horder.2 row hrow hv hcurrent hin

variable [ToString C]

/-- The call, unless it is a replay, is in order with the truncates. -/
def Call.InTruncateOrder (store : Store C V) : Call C V → Prop
  | .event _ change => Unclaimed store.ledger change.pipeline change.targetTable change.eventId →
      ∀ token ∈ (transactionOrderToken change.identity).toOption,
        change.InTruncateOrder store.rows token
  | .truncate _ change =>
      Unclaimed store.ledger change.pipeline change.targetTable change.identity.eventId →
      ∀ token ∈ (transactionOrderToken change.identity).toOption,
        TruncateInOrder store.rows token

instance (store : Store C V) : (call : Call C V) → Decidable (call.InTruncateOrder store)
  | .event _ _ => inferInstanceAs (Decidable (_ → _))
  | .truncate _ _ => inferInstanceAs (Decidable (_ → _))

omit [ToString C] [DecidableEq C] [DecidableEq V] in
theorem map_fst_eq_ok {α β : Type} {m : Except Raised (α × β)} {a : α}
    (h : m.map Prod.fst = .ok a) : ∃ b, m = .ok (a, b) := by
  cases m with
  | error e => simp [Except.map] at h
  | ok p =>
    obtain ⟨a', b⟩ := p
    simp only [Except.map, Except.ok.injEq] at h
    exact ⟨b, by rw [h]⟩

/-- **One call** that returns and is in order with the truncates keeps the chain. -/
theorem Chained.call {store store' : Store C V} {call : Call C V} (h : Chained store.rows)
    (horder : call.InTruncateOrder store) (hcall : call.apply store = .ok store') :
    Chained store'.rows := by
  cases call with
  | event bundle event =>
    obtain ⟨result, hrun⟩ := map_fst_eq_ok hcall
    obtain ⟨token, ensured, htoken, -, -, ⟨-, hrows, -⟩ | ⟨hnew, -, place, raw, encoded, hw⟩⟩ :=
      applyEvent_cases hrun
    · rw [hrows]
      exact h
    · rw [hw.rows_eq, place.result_eq]
      exact h.insert (h.extends_of_written hw
        (horder hnew token (by simp [htoken, Except.toOption])))
  | truncate bundle change =>
    obtain ⟨result, hrun⟩ := map_fst_eq_ok hcall
    obtain ⟨token, htoken, hrows | ⟨hnew, hid, hrows⟩⟩ := applyTruncate_cases hrun
    · rw [hrows]
      exact h
    · rw [hrows]
      exact h.insert (h.extends_of_truncate hid
        (horder hnew token (by simp [htoken, Except.toOption])))

/-! ### Runs -/

/-- What a reader of the history relies on: the versions of an identity do not overlap and do not
reach over a truncate or a deletion, each ends at the next event that affects the identity, and at
most one of them, the last, is current. -/
structure Tiled (rows : List (HistoryRow C V)) : Prop where
  starts : ∀ row ∈ rows, ∀ row' ∈ rows, row.IsVersion → row'.IsVersion →
    row.sourceIdentity = row'.sourceIdentity → row.validFrom = row'.validFrom → row = row'
  forward : ∀ row ∈ rows, row.IsVersion → row.validFrom < row.validTo
  disjoint : ∀ row ∈ rows, ∀ row' ∈ rows, row.IsVersion → row'.IsVersion →
    row.sourceIdentity = row'.sourceIdentity → row.validFrom < row'.validFrom →
      row.validTo ≤ row'.validFrom
  ends : ∀ row ∈ rows, row.IsVersion →
    row.validTo = nextAbove (affecting rows row.sourceIdentity) row.validFrom
  current_last : ∀ row ∈ rows, row.IsVersion → row.current = true → ∀ row' ∈ rows,
    row'.IsVersion → row'.sourceIdentity = row.sourceIdentity →
      row' = row ∨ row'.current = false ∧ row'.validFrom < row.validFrom
  truncates : ∀ row ∈ rows, row.IsVersion → ∀ marker ∈ rows, marker.operation = .truncate →
    row.validFrom < marker.validFrom → row.validTo ≤ marker.validFrom
  deletes : ∀ row ∈ rows, row.IsVersion → ∀ deletion ∈ rows, deletion.operation = .delete →
    deletion.sourceIdentity = row.sourceIdentity → row.validFrom < deletion.validFrom →
      row.validTo ≤ deletion.validFrom

omit [ToString C] in
theorem Chained.tiled (h : Chained rows) : Tiled rows where
  starts row hrow row' hrow' hv _ := h.starts row hrow row' hrow' hv
  forward row hrow hv := by
    rw [h.ends row hrow hv]
    exact lt_nextAbove _ _
  disjoint row hrow row' hrow' hv _ hid := h.validTo_le hrow hv hrow' (Or.inl hid.symm)
  ends := h.ends
  current_last := by
    intro row hrow hv hcurrent row' hrow' hv' hid
    by_cases heq : row' = row
    · exact Or.inl heq
    · have hle := h.affecting_le_of_current hrow hv hcurrent
        (mem_affecting.2 ⟨row', hrow', Or.inl hid, rfl⟩)
      have hlt : row'.validFrom < row.validFrom :=
        lt_of_le_of_ne hle fun hfrom => heq (h.starts row' hrow' row hrow hv' hid hfrom)
      have hto : row'.validTo ≠ ⊤ :=
        ((h.validTo_le hrow' hv' hrow (Or.inl hid.symm) hlt).trans_lt (WithTop.coe_lt_top _)).ne
      refine Or.inr ⟨?_, hlt⟩
      rw [Bool.eq_false_iff, ne_eq, h.current_iff row' hrow' hv']
      exact hto
  truncates row hrow hv marker hmarker htruncate :=
    h.validTo_le hrow hv hmarker (Or.inr htruncate)
  deletes row hrow hv deletion hdeletion _ hid := h.validTo_le hrow hv hdeletion (Or.inl hid)

/-- A call that returns, made in order with the truncates. Otherwise the calls may arrive in any
order, and again: nothing is asked of a call that the ledger knows already. -/
def InOrderStep (store : Store C V) (call : Call C V) (store' : Store C V) : Prop :=
  call.InTruncateOrder store ∧ call.apply store = .ok store'

/-- **The histories of calls in order are tiled.** From an empty history, after any sequence of
calls that return and that are in order with the truncates, in any arrival order and with any
replays. -/
theorem tiled_of_inTruncateOrder {start store : Store C V} {calls : List (Call C V)}
    (hstart : start.rows = []) (hrun : Trace InOrderStep start calls store) :
    Tiled store.rows := by
  refine Chained.tiled (hrun.invariant (P := fun s => Chained s.rows) ?_ ?_)
  · rintro s call t h ⟨horder, hcall⟩
    exact h.call horder hcall
  · rw [hstart]
    exact Chained.nil

/-- The calls that return, as long as they are in order with the truncates. -/
def applyInOrder (store : Store C V) (calls : List (Call C V)) : Option (Store C V) :=
  calls.foldlM (fun store call =>
    if call.InTruncateOrder store then (call.apply store).toOption else none) store

theorem trace_of_applyInOrder {start store : Store C V} {calls : List (Call C V)}
    (h : applyInOrder start calls = some store) : Trace InOrderStep start calls store := by
  induction calls generalizing start with
  | nil =>
    cases h
    exact .nil _
  | cons call calls ih =>
    rw [applyInOrder, List.foldlM_cons] at h
    obtain ⟨next, hcall, hrest⟩ := Option.bind_eq_some_iff.1 h
    split_ifs at hcall with horder
    refine .cons ⟨horder, ?_⟩ (ih hrest)
    cases hrun : call.apply start with
    | error e => simp [hrun, Except.toOption] at hcall
    | ok next' => simpa [hrun, Except.toOption] using hcall

end CdcFlight.Scd2

/-! ### A table of accounts -/

namespace CdcFlight.Accounts

open Lib Scd2

/-- The bundle of the table. -/
def bundle : Bundle Column String where
  sourceSchema := "app"
  sourceTable := "accounts"
  targetTable := "cdcflight_app_accounts"
  columns := Dict.tabulate [.id, .note, .body] full.columns_nodup fun _ => {}
  keyColumns := [.id]
  relationGeneration := "16401:16401:16403"

/-- The complete image of a row. -/
def image (r : Row Column String) : Image Column String :=
  Dict.tabulate [.id, .note, .body] full.columns_nodup r

/-- The identity of the only event of a transaction committed at a position. -/
def identityAt (lsn : ℕ) (op : Op) : EventIdentity where
  eventId := streamEventId "7401" 1 "16401:16401:16403" (toString lsn) lsn 1
  sourceSchema := some "app"
  sourceTable := some "accounts"
  sourceClusterId := some "7401"
  sourceTimeline := some 1
  relationGeneration := some "16401:16401:16403"
  txnId := some (toString lsn)
  commitLsn := some lsn
  sourceLsn := some lsn
  totalOrder := some 1
  operation := some op
  strong := true

/-- A row event on the account with the id 1. -/
def versionAt (lsn : ℕ) (operation : RowOperation) (before after : Option (Row Column String)) :
    Event Column String where
  pipeline := "p"
  targetTable := "cdcflight_app_accounts"
  sourceSchema := "app"
  sourceTable := "accounts"
  operation := operation
  key := Dict.tabulate [.id] full.key_nodup fun _ => some "1"
  before := before.map image
  after := after.map image
  identity := identityAt lsn operation.op

/-- A truncate of the table. -/
def truncateAt (lsn : ℕ) : TableEvent where
  pipeline := "p"
  targetTable := "cdcflight_app_accounts"
  sourceSchema := "app"
  sourceTable := "accounts"
  identity := identityAt lsn .truncate

/-- An insert, a late update, a truncate, a second insert, its deletion, and a replay. -/
def spliced : List (Call Column String) :=
  [.event bundle (versionAt 1 .create none (some (row "1" "a" "x"))),
    .event bundle (versionAt 6 .update (some (row "1" "a" "x")) (some (row "1" "c" "x"))),
    .event bundle (versionAt 5 .update (some (row "1" "a" "x")) (some (row "1" "a" "x"))),
    .truncate bundle (truncateAt 10),
    .event bundle (versionAt 20 .create none (some (row "1" "b" "x"))),
    .event bundle (versionAt 21 .delete (some (row "1" "b" "x")) none),
    .truncate bundle (truncateAt 10)]

theorem spliced_tiled : ∃ store, Trace InOrderStep {} spliced store ∧ store.rows.length = 6 ∧
    Tiled store.rows := by
  have hlength : (applyInOrder {} spliced).map (·.rows.length) = some 6 := by decide +kernel
  obtain ⟨store, hrun, hrows⟩ := Option.map_eq_some_iff.1 hlength
  have htrace := trace_of_applyInOrder hrun
  exact ⟨store, htrace, hrows, tiled_of_inTruncateOrder rfl htrace⟩

/-- An update that arrives after the truncate that follows it, and after the next insert. -/
def lateAfterTruncate : List (Call Column String) :=
  [.event bundle (versionAt 1 .create none (some (row "1" "a" "x"))),
    .truncate bundle (truncateAt 10),
    .event bundle (versionAt 20 .create none (some (row "1" "b" "x"))),
    .event bundle (versionAt 5 .update (some (row "1" "a" "x")) (some (row "1" "c" "x")))]

/-- A version that starts before a truncate and ends after it. -/
def crossesTruncate (rows : List (HistoryRow Column String)) : Prop :=
  ∃ row ∈ rows, row.IsVersion ∧ ∃ marker ∈ rows, marker.operation = .truncate ∧
    row.validFrom < marker.validFrom ∧ (marker.validFrom : WithTop String) < row.validTo

instance (rows : List (HistoryRow Column String)) : Decidable (crossesTruncate rows) :=
  inferInstanceAs (Decidable (∃ row ∈ rows, _))

theorem lateAfterTruncate_not_tiled : ∃ store,
    applyCalls {} lateAfterTruncate = .ok store ∧ ¬ Tiled store.rows := by
  have hcross : ((applyCalls {} lateAfterTruncate).toOption.any
      fun store => decide (crossesTruncate store.rows)) = true := by decide +kernel
  cases hrun : applyCalls {} lateAfterTruncate with
  | error e =>
    rw [hrun] at hcross
    cases hcross
  | ok store =>
    refine ⟨store, rfl, fun htiled => ?_⟩
    rw [hrun] at hcross
    obtain ⟨row, hrow, hv, marker, hmarker, htruncate, hlt, hover⟩ := of_decide_eq_true hcross
    exact hover.not_ge (htiled.truncates row hrow hv marker hmarker htruncate hlt)

end CdcFlight.Accounts
