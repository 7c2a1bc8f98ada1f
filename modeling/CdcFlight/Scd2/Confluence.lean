import CdcFlight.Scd2.Source

/-!
# The history does not depend on the arrival order

Within one generation and without truncates, the history table is a function of the set of
applied events: an event's row has the event's image and token, ends at the next token of its
identity and is current when there is none. An accepted arrival in any order, with any event
delivered again, therefore ends in the rows of the source order; and the source order is accepted,
since an accepted arrival has shown the images to be complete.

## Main definitions

* `CdcFlight.Scd2.Event.IsRow`: a row is the version of an event.
* `CdcFlight.Scd2.Applied`: the state after the first application of a set of events.

## Main results

* `CdcFlight.Scd2.Applied.step`: one accepted event.
* `CdcFlight.Scd2.Applied.rows_perm`: the rows are determined by the events.
* `CdcFlight.Scd2.Applied.progress`: the next event in source order is accepted.
* `CdcFlight.Scd2.applyCalls_confluent`: accepted arrivals and the source order agree.
-/

namespace CdcFlight.Scd2

open Lib

variable {C V : Type} [DecidableEq C] [DecidableEq V] {bundle : Bundle C V} {event : Event C V}

/-! ### Images -/

theorem canonicalJson_inj {image image' : Image C V} :
    canonicalJson image = canonicalJson image' ↔ ∀ c, image.get? c = image'.get? c := by
  constructor
  · intro h c
    refine Option.ext fun x => ?_
    have hmem := Finset.ext_iff.1 h (c, x)
    simpa [canonicalJson, ← Dict.get?_eq_some_iff] using hmem
  · intro h
    ext ⟨c, x⟩
    simp [canonicalJson, ← Dict.get?_eq_some_iff, h c]

/-- The image an event keeps: the before-image of a deletion, otherwise the after-image. -/
def Event.kept (event : Event C V) : Option (Image C V) :=
  if event.operation = .delete then event.before else event.after

omit [DecidableEq V] in
/-- A complete image carries every column of the bundle, and the raw image is its restriction. -/
theorem Event.image_eq_ok {raw encoded : Image C V} (h : event.image bundle = .ok (raw, encoded)) :
    ∃ image, event.kept = some image ∧ (∀ c ∈ bundle.columns.keys, c ∈ image.keys) ∧
      ∀ c, raw.get? c = if c ∈ bundle.columns.keys then image.get? c else none := by
  have hcomplete : ∃ label, completeImage bundle event.kept event label = .ok (raw, encoded) := by
    rw [Event.image.eq_def] at h
    rw [Event.kept]
    cases hop : event.operation <;> simp only [hop] at h <;> exact ⟨_, h⟩
  obtain ⟨label, hcomplete⟩ := hcomplete
  rw [completeImage.eq_def] at hcomplete
  cases hkept : event.kept with
  | none => simp [hkept, Event.refused] at hcomplete
  | some image =>
    rw [hkept] at hcomplete
    dsimp only at hcomplete
    split_ifs at hcomplete with hmissing hencode
    · simp [Event.refused] at hcomplete
    · simp [Event.refused] at hcomplete
    · simp only [Except.ok.injEq, Prod.mk.injEq] at hcomplete
      refine ⟨image, rfl, fun c hc => ?_, fun c => ?_⟩
      · by_contra hnot
        refine hmissing (List.any_eq_true.2 ⟨c, hc, ?_⟩)
        have hfalse : image.contains c ≠ true := fun htrue =>
          hnot (Dict.contains_eq_true_iff.1 htrue)
        simpa using hfalse
      · rw [← hcomplete.1, Dict.get?_filterMapValues]
        split_ifs with hc
        · obtain ⟨column, hcolumn⟩ := Dict.mem_keys_iff.1 hc
          rw [hcolumn, Option.bind_some]
        · rw [Dict.get?_eq_none_iff.2 hc, Option.bind_none]

omit [DecidableEq V] in
/-- The raw image has exactly the columns of the bundle. -/
theorem Event.mem_keys_raw {raw encoded : Image C V} (h : event.image bundle = .ok (raw, encoded))
    (c : C) : c ∈ raw.keys ↔ c ∈ bundle.columns.keys := by
  obtain ⟨image, -, hkeys, hraw⟩ := Event.image_eq_ok h
  rw [Dict.mem_keys_iff, hraw c]
  split_ifs with hc
  · simpa [hc] using Dict.mem_keys_iff.1 (hkeys c hc)
  · simp [hc]

/-! ### The rows of events -/

/-- The row is the version of the event, whatever its end and current flag. -/
def Event.IsRow (event : Event C V) (bundle : Bundle C V) (row : HistoryRow C V) : Prop :=
  ∃ raw encoded, event.image bundle = .ok (raw, encoded) ∧
    row = event.historyRow event.orderToken raw encoded row.validTo row.current

namespace Event.IsRow

variable {row row' : HistoryRow C V}

theorem sourceIdentity (h : event.IsRow bundle row) :
    row.sourceIdentity = event.sourceIdentity := by
  obtain ⟨raw, encoded, -, hrow⟩ := h
  rw [hrow]
  rfl

theorem validFrom (h : event.IsRow bundle row) : row.validFrom = event.orderToken := by
  obtain ⟨raw, encoded, -, hrow⟩ := h
  rw [hrow]
  rfl

theorem eventId (h : event.IsRow bundle row) : row.eventId = event.eventId := by
  obtain ⟨raw, encoded, -, hrow⟩ := h
  rw [hrow]
  rfl

theorem isVersion (h : event.IsRow bundle row) : row.IsVersion := by
  obtain ⟨raw, encoded, -, hrow⟩ := h
  rw [HistoryRow.IsVersion, hrow]
  exact event.operation.op_ne_truncate

theorem closeIf (h : event.IsRow bundle row) (closed : Bool) (token : String) :
    event.IsRow bundle (row.closeIf closed token) := by
  obtain ⟨raw, encoded, himage, hrow⟩ := h
  refine ⟨raw, encoded, himage, ?_⟩
  cases closed with
  | false => exact hrow
  | true =>
    rw [hrow]
    rfl

/-- Two rows of one event with the same end and flag are equal. -/
theorem eq (h : event.IsRow bundle row) (h' : event.IsRow bundle row')
    (hto : row.validTo = row'.validTo) (hcurrent : row.current = row'.current) : row = row' := by
  obtain ⟨raw, encoded, himage, hrow⟩ := h
  obtain ⟨raw', encoded', himage', hrow'⟩ := h'
  rw [himage] at himage'
  cases himage'
  rw [hrow, hrow', hto, hcurrent]

end Event.IsRow

/-- An update or a deletion carries a before-image of exactly the bundle's columns. -/
def Event.Verified (event : Event C V) (bundle : Bundle C V) : Prop :=
  event.operation.creates = false →
    ∃ before, event.before = some before ∧ ∀ c, c ∈ before.keys ↔ c ∈ bundle.columns.keys

theorem verifyBefore_eq_ok {row : HistoryRow C V} (h : verifyBefore event row = .ok ()) :
    ∃ before, event.before = some before ∧ row.imageJson = some (canonicalJson before) := by
  rw [verifyBefore.eq_def] at h
  cases hbefore : event.before with
  | none => simp [hbefore, Event.refused] at h
  | some before =>
    rw [hbefore] at h
    dsimp only at h
    split_ifs at h with hjson
    · exact ⟨before, rfl, hjson⟩
    · simp [Event.refused] at h

/-- A before-image that was compared with a stored version is complete. -/
theorem Event.Verified.of_verifyBefore {event' : Event C V} {row : HistoryRow C V}
    (h : verifyBefore event row = .ok ()) (hrow : event'.IsRow bundle row) :
    event.Verified bundle := by
  intro _
  obtain ⟨before, hbefore, hjson⟩ := verifyBefore_eq_ok h
  obtain ⟨raw, encoded, himage, hrow⟩ := hrow
  refine ⟨before, hbefore, fun c => ?_⟩
  rw [hrow] at hjson
  have hget := canonicalJson_inj.1 (Option.some.inj hjson) c
  rw [Dict.mem_keys_iff, ← hget, ← Dict.mem_keys_iff]
  exact Event.mem_keys_raw himage c

/-! ### The state after a set of events -/

/-- **The state after the first application of the listed events** of a source history, in any
order: a chain of their versions, with their claims in the ledger. -/
structure Applied (bundle : Bundle C V) (start : Store C V) (history events : List (Event C V))
    (store : Store C V) : Prop where
  chained : Chained store.rows
  rows : ∀ row ∈ store.rows, ∃ event ∈ events, event.IsRow bundle row
  written : ∀ event ∈ events, ∃ row ∈ store.rows, event.IsRow bundle row
  verified : ∀ event ∈ events, event.Verified bundle
  claimed : ∀ event ∈ events, readEventLedger store.ledger event.pipeline event.targetTable
    event.eventId = some ⟨event.pipeline, event.targetTable, event.identity, .applied⟩
  unclaimed : ∀ event ∈ history, event ∉ events →
    Unclaimed store.ledger event.pipeline event.targetTable event.eventId
  columns : store.columns.getD bundle.columns.keys = start.columns.getD bundle.columns.keys
  created : events ≠ [] → ∃ columns, store.columns = some columns

namespace Applied

variable {start store store' : Store C V} {history events : List (Event C V)} {lineage : Lineage}

theorem nil (hrows : start.rows = []) (hledger : ∀ event ∈ history,
    Unclaimed start.ledger event.pipeline event.targetTable event.eventId) :
    Applied bundle start history [] start where
  chained := hrows ▸ Chained.nil
  rows _ hrow := absurd (hrows ▸ hrow) List.not_mem_nil
  written := List.forall_mem_nil _
  verified := List.forall_mem_nil _
  claimed := List.forall_mem_nil _
  unclaimed event hevent _ := hledger event hevent
  columns := rfl
  created h := absurd rfl h

/-- The events that affect an identity are its own. -/
theorem mem_affecting_iff (h : Applied bundle start history events store)
    {identity : SourceIdentity C V} {t : String} : t ∈ affecting store.rows identity ↔
      ∃ event ∈ events, event.sourceIdentity = identity ∧ event.orderToken = t := by
  rw [mem_affecting]
  constructor
  · rintro ⟨row, hrow, haffects, rfl⟩
    obtain ⟨event, hevent, hisrow⟩ := h.rows row hrow
    rcases haffects with hid | hmarker
    · exact ⟨event, hevent, hisrow.sourceIdentity.symm.trans hid, hisrow.validFrom.symm⟩
    · exact absurd hmarker hisrow.isVersion
  · rintro ⟨event, hevent, hid, rfl⟩
    obtain ⟨row, hrow, hisrow⟩ := h.written event hevent
    exact ⟨row, hrow, Or.inl (hisrow.sourceIdentity.trans hid), hisrow.validFrom⟩

/-- **The rows are determined by the events.** -/
theorem rows_perm {events' : List (Event C V)} (h : Applied bundle start history events store)
    (h' : Applied bundle start history events' store')
    (hevents : ∀ event, event ∈ events ↔ event ∈ events') :
    store.rows.Perm store'.rows := by
  have hsub : ∀ {store store' : Store C V} {events events' : List (Event C V)},
      Applied bundle start history events store → Applied bundle start history events' store' →
      (∀ event, event ∈ events ↔ event ∈ events') → ∀ row ∈ store.rows, row ∈ store'.rows := by
    intro store store' events events' h h' hevents row hrow
    obtain ⟨event, hevent, hisrow⟩ := h.rows row hrow
    obtain ⟨row', hrow', hisrow'⟩ := h'.written event ((hevents event).1 hevent)
    have haffecting : affecting store.rows event.sourceIdentity =
        affecting store'.rows event.sourceIdentity := by
      ext t
      rw [h.mem_affecting_iff, h'.mem_affecting_iff]
      simp only [hevents]
    have hto : row.validTo = row'.validTo := by
      rw [h.chained.ends row hrow hisrow.isVersion, h'.chained.ends row' hrow' hisrow'.isVersion,
        hisrow.sourceIdentity, hisrow'.sourceIdentity, hisrow.validFrom, hisrow'.validFrom,
          haffecting]
    have hcurrent : row.current = row'.current := by
      rw [Bool.eq_iff_iff, h.chained.current_iff row hrow hisrow.isVersion,
        h'.chained.current_iff row' hrow' hisrow'.isVersion, hto]
    rwa [hisrow.eq hisrow' hto hcurrent]
  have hnodup : store.rows.Nodup := h.chained.eventIds.of_map _
  have hnodup' : store'.rows.Nodup := h'.chained.eventIds.of_map _
  exact (List.perm_ext_iff_of_nodup hnodup hnodup').2 fun row =>
    ⟨hsub h h' hevents row, hsub h' h (fun event => (hevents event).symm) row⟩

/-! ### One accepted event -/

/-- Without markers every row event is in order with the truncates. -/
theorem inTruncateOrder (h : Applied bundle start history events store) (event : Event C V)
    (token : String) : event.InTruncateOrder store.rows token := by
  have hnone : ∀ row ∈ store.rows, row.operation ≠ .truncate := fun row hrow => by
    obtain ⟨event', -, hisrow⟩ := h.rows row hrow
    exact hisrow.isVersion
  exact ⟨fun _ row hrow hmarker => absurd hmarker (hnone row hrow),
    fun _ _ _ _ _ _ row hrow hmarker => absurd hmarker (hnone row hrow)⟩

/-- An event written at its place has a complete before-image, if it needs one. -/
theorem verified_of_placed (h : Applied bundle start history events store) {token : String}
    {place : Splice C V} (hplaced : Place store.rows event token place) :
    event.Verified bundle := by
  intro hupdates
  have hrow : ∃ row ∈ store.rows, verifyBefore event row = .ok () := by
    cases hplaced with
    | first hnone hcreates => simp [hcreates] at hupdates
    | restart hclosed hcreates hboundary hlt => simp [hcreates] at hupdates
    | after hmem hid hcurrent hlt hverified =>
      obtain ⟨row, hpred, hok⟩ := hverified hupdates
      exact ⟨row, hpred.mem, hok⟩
    | between hpred hsucc hmem hid hcurrent hlt hverified =>
      exact ⟨_, hpred.mem, hverified hupdates⟩
  obtain ⟨row, hrow, hok⟩ := hrow
  obtain ⟨event', -, hisrow⟩ := h.rows row hrow
  exact Event.Verified.of_verifyBefore hok hisrow hupdates

variable [ToString C]

/-- **One accepted event** is applied, or was before. -/
theorem step (hlegal : LegalHistory lineage bundle history)
    (h : Applied bundle start history events store) (hevent : event ∈ history)
    {result : ApplyResult} (hrun : applyEvent bundle event store = .ok (store', result)) :
    Applied bundle start history (event :: events) store' := by
  obtain ⟨token, ensured, htoken, hensure, hcolumns, hcases⟩ := applyEvent_cases hrun
  have hcolumns' : store'.columns = some (store.columns.getD bundle.columns.keys) := by
    rw [hcolumns, ensureBundle_eq_ok hensure]
  have hgetD :
      store'.columns.getD bundle.columns.keys = start.columns.getD bundle.columns.keys := by
    rw [hcolumns', Option.getD_some, h.columns]
  rw [(hlegal.streamed event hevent).transactionOrderToken_ok] at htoken
  cases htoken
  rcases hcases with ⟨hold, hrows, hledger⟩ | ⟨hnew, hledger, place, raw, encoded, hw⟩
  · have hin : event ∈ events := by
      by_contra hnot
      exact hold (h.unclaimed event hevent hnot)
    have hmem : ∀ event', event' ∈ event :: events ↔ event' ∈ events := fun event' => by
      rw [List.mem_cons, or_iff_right_of_imp]
      rintro rfl
      exact hin
    refine ⟨hrows ▸ h.chained, ?_, ?_, ?_, ?_, ?_, hgetD, fun _ => ⟨_, hcolumns'⟩⟩
    · simpa only [hmem, hrows] using h.rows
    · simpa only [hmem, hrows] using h.written
    · simpa only [hmem] using h.verified
    · simpa only [hmem, hledger] using h.claimed
    · simpa only [hmem, hledger] using h.unclaimed
  · have hisnew : ∀ validTo current, event.IsRow bundle
        (event.historyRow event.orderToken raw encoded validTo current) :=
      fun _ _ => ⟨raw, encoded, hw.image, rfl⟩
    have hresult := hw.rows_eq
    rw [place.result_eq] at hresult
    refine ⟨?_, fun row hrow => ?_, fun event' hevent' => ?_, fun event' hevent' => ?_,
      fun event' hevent' => ?_, fun event' hevent' hnot => ?_, hgetD, fun _ => ⟨_, hcolumns'⟩⟩
    · rw [hresult]
      exact h.chained.insert (h.chained.extends_of_written hw (h.inTruncateOrder event _))
    · rw [hresult] at hrow
      rcases mem_closeWhere_append hrow with rfl | ⟨row', hrow', rfl⟩
      · exact ⟨event, List.mem_cons_self, hisnew _ _⟩
      · obtain ⟨event', hevent', hisrow⟩ := h.rows row' hrow'
        exact ⟨event', List.mem_cons_of_mem _ hevent', hisrow.closeIf _ _⟩
    · rw [hresult]
      rcases List.mem_cons.1 hevent' with rfl | hevent'
      · exact ⟨_, List.mem_append_right _ (List.mem_singleton_self _), hisnew _ _⟩
      · obtain ⟨row, hrow, hisrow⟩ := h.written event' hevent'
        exact ⟨_, List.mem_append_left _ (List.mem_map.2 ⟨row, hrow, rfl⟩), hisrow.closeIf _ _⟩
    · rcases List.mem_cons.1 hevent' with rfl | hevent'
      · exact h.verified_of_placed hw.placed
      · exact h.verified event' hevent'
    · rw [hledger, readEventLedger_append]
      rcases List.mem_cons.1 hevent' with rfl | hevent'
      · rw [show readEventLedger store.ledger _ _ _ = none from hnew]
        simp [Event.eventId]
      · rw [h.claimed event' hevent']
        rfl
    · rw [List.mem_cons, not_or] at hnot
      rw [hledger, Unclaimed, readEventLedger_append,
        show readEventLedger store.ledger _ _ _ = none from h.unclaimed event' hevent' hnot.2,
        if_neg]
      · rfl
      · rintro ⟨-, -, hid⟩
        exact hnot.1 (hlegal.eq_of_eventId hevent' hevent hid.symm)

/-! ### The source order is accepted -/

end Applied

omit [DecidableEq C] [DecidableEq V] in
private theorem filter_eq_singleton {l : List (HistoryRow C V)} {p : HistoryRow C V → Bool}
    {row : HistoryRow C V} (hnodup : l.Nodup) (hrow : row ∈ l) (hp : p row = true)
    (honly : ∀ row' ∈ l, p row' = true → row' = row) : l.filter p = [row] := by
  have hperm : (l.filter p).Perm [row] := by
    refine (List.perm_ext_iff_of_nodup (hnodup.filter p) (List.nodup_singleton row)).2 fun row' =>
      ?_
    rw [List.mem_filter, List.mem_singleton]
    constructor
    · rintro ⟨hrow', hp'⟩
      exact honly row' hrow' hp'
    · rintro rfl
      exact ⟨hrow, hp⟩
  exact List.perm_singleton.1 hperm

variable {rows : List (HistoryRow C V)} {token : String} {raw encoded : Image C V}

/-- A write at a place succeeds if the event id is new. -/
theorem writeSplice_of_free (place : Splice C V) (hid : ∀ row ∈ rows, row.eventId ≠ event.eventId) :
    writeSplice rows token (event.historyRow token raw encoded) place =
      .ok (place.result rows event token raw encoded) := by
  have hfree : ∀ p : HistoryRow C V → Bool, ¬ ((closeWhere p rows token).any
      fun row => decide (row.eventId = event.eventId)) = true := by
    intro p hany
    obtain ⟨row, hrow, heq⟩ := List.any_eq_true.1 hany
    obtain ⟨row', hrow', rfl⟩ := List.mem_map.1 hrow
    exact hid row' hrow' (by simpa using heq)
  cases place with
  | fresh =>
    have hnone := hfree fun _ => false
    rw [closeWhere_false] at hnone
    exact if_neg hnone
  | after current =>
    have hnone := hfree fun row => decide (row.eventId = current.eventId)
    rw [← closeRow_eq_closeWhere] at hnone
    exact if_neg hnone
  | between pred validTo =>
    have hnone := hfree fun row => decide (row.eventId = pred.eventId)
    rw [← closeRow_eq_closeWhere] at hnone
    exact if_neg hnone

/-- An event with a place and a complete image is written there. -/
theorem applyNew_of_splice {current : Option (HistoryRow C V)} {place : Splice C V}
    (hcurrent : currentRow event (historyRows rows event.sourceIdentity) = .ok current)
    (hexact : ∀ row ∈ rows, row.sourceIdentity = event.sourceIdentity → row.validFrom ≠ token)
    (himage : event.image bundle = .ok (raw, encoded))
    (hsplice : splice event token (historyRows rows event.sourceIdentity) current
      (truncateBoundary rows) = .ok place)
    (hid : ∀ row ∈ rows, row.eventId ≠ event.eventId) :
    applyNew bundle event token rows =
      .ok (place.result rows event token raw encoded, place.isCurrent) := by
  have hany : ¬ ((historyRows rows event.sourceIdentity).any
      fun row => decide (row.validFrom = token)) = true := by
    intro hany
    obtain ⟨row, hrow, heq⟩ := List.any_eq_true.1 hany
    obtain ⟨hrow, hrowid⟩ := mem_historyRows.1 hrow
    exact hexact row hrow hrowid (by simpa using heq)
  rw [applyNew, hcurrent]
  change (if _ then _ else _) = _
  rw [if_neg hany, himage]
  change (splice event token (historyRows rows event.sourceIdentity) current
    (truncateBoundary rows) >>= _) = _
  rw [hsplice]
  change (writeSplice rows token (event.historyRow token raw encoded) place >>= _) = _
  rw [writeSplice_of_free place hid]
  rfl

/-- The first event of an identity is accepted if it creates the row. -/
theorem applyNew_of_first (hnone : ∀ row ∈ rows, row.sourceIdentity ≠ event.sourceIdentity)
    (himage : event.image bundle = .ok (raw, encoded)) (hcreates : event.operation.creates = true)
    (hid : ∀ row ∈ rows, row.eventId ≠ event.eventId) :
    ∃ written, applyNew bundle event token rows = .ok written := by
  have hempty : historyRows rows event.sourceIdentity = [] :=
    List.eq_nil_iff_forall_not_mem.2 fun row hrow =>
      hnone row (mem_historyRows.1 hrow).1 (mem_historyRows.1 hrow).2
  have hsplice : splice event token (historyRows rows event.sourceIdentity) none
      (truncateBoundary rows) = .ok .fresh := by
    rw [splice.eq_def, hempty]
    simp [hcreates]
  exact ⟨_, applyNew_of_splice (by rw [hempty]; rfl) (fun row hrow hrowid => absurd hrowid
    (hnone row hrow)) himage hsplice hid⟩

/-- An event behind the current version is accepted if its before-image is that version's. -/
theorem applyNew_of_last (h : Chained rows) {current : HistoryRow C V} (hmem : current ∈ rows)
    (hident : current.sourceIdentity = event.sourceIdentity) (hcurrent : current.current = true)
    (hlt : current.validFrom < token) (himage : event.image bundle = .ok (raw, encoded))
    (hid : ∀ row ∈ rows, row.eventId ≠ event.eventId)
    (hverified : event.operation.creates = false → verifyBefore event current = .ok ()) :
    ∃ written, applyNew bundle event token rows = .ok written := by
  have hv : current.IsVersion := (h.isVersion_iff current hmem).2 ⟨_, hident⟩
  have hin : current ∈ historyRows rows event.sourceIdentity := mem_historyRows.2 ⟨hmem, hident⟩
  have hle : ∀ row ∈ rows, row.sourceIdentity = event.sourceIdentity →
      row.validFrom ≤ current.validFrom := fun row hrow hrowid =>
    h.affecting_le_of_current hmem hv hcurrent
      (mem_affecting.2 ⟨row, hrow, Or.inl (hrowid.trans hident.symm), rfl⟩)
  have heq : ∀ row ∈ rows, row.sourceIdentity = event.sourceIdentity →
      current.validFrom ≤ row.validFrom → row = current := fun row hrow hrowid hge =>
    h.starts row hrow current hmem ((h.isVersion_iff row hrow).2 ⟨_, hrowid⟩)
      (hrowid.trans hident.symm) (le_antisymm (hle row hrow hrowid) hge)
  have honly : ∀ row ∈ historyRows rows event.sourceIdentity, row.current = true →
      row = current := by
    intro row hrow hrowcurrent
    obtain ⟨hrow, hrowid⟩ := mem_historyRows.1 hrow
    exact heq row hrow hrowid (h.affecting_le_of_current hrow
      ((h.isVersion_iff row hrow).2 ⟨_, hrowid⟩) hrowcurrent
      (mem_affecting.2 ⟨current, hmem, Or.inl (hident.trans hrowid.symm), rfl⟩))
  have hnodup : (historyRows rows event.sourceIdentity).Nodup :=
    (List.perm_insertionSort _ _).nodup_iff.2 ((h.eventIds.of_map _).filter _)
  have hcurrentRow : currentRow event (historyRows rows event.sourceIdentity) =
      .ok (some current) := by
    rw [currentRow, filter_eq_singleton hnodup hin hcurrent honly]
  have hpred : predecessor (historyRows rows event.sourceIdentity) token = some current := by
    cases hp : predecessor (historyRows rows event.sourceIdentity) token with
    | none => exact absurd hlt (predecessor_eq_none_iff.1 hp current hin).not_gt
    | some pred =>
      have hispred := isPredecessor_of_predecessor hp
      rw [heq pred hispred.mem hispred.sourceIdentity (hispred.greatest current hmem hident hlt)]
  have hcheck : checkPredecessor event (some current) (late (some current) token) = .ok () := by
    rw [checkPredecessor.eq_def]
    by_cases hcreates : event.operation.creates = true
    · simp [hcreates]
    · rw [if_neg hcreates]
      exact hverified (by simpa using hcreates)
  have hsplice : splice event token (historyRows rows event.sourceIdentity) (some current)
      (truncateBoundary rows) = .ok (.after current) := by
    rw [splice.eq_def, hpred, hcheck]
    simp [List.ne_nil_of_mem hin, hlt.not_gt, hlt.not_ge, bind, Except.bind]
  exact ⟨_, applyNew_of_splice hcurrentRow
    (fun row hrow hrowid => ((hle row hrow hrowid).trans_lt hlt).ne) himage hsplice hid⟩

/-- A before-image that agrees with the row its predecessor wrote is accepted. -/
theorem verifyBefore_of_agrees {last : Event C V} {row : HistoryRow C V} {old : Row C V}
    (hrow : last.IsRow bundle row) (hop : last.operation ≠ .delete)
    (hafter : AgreesWith last.after old) (hbefore : AgreesWith event.before old)
    (hverified : event.Verified bundle) (hupdates : event.operation.creates = false) :
    verifyBefore event row = .ok () := by
  obtain ⟨before, hsome, hkeys⟩ := hverified hupdates
  obtain ⟨raw, encoded, himage, hrow⟩ := hrow
  obtain ⟨image, hkept, himageKeys, hraw⟩ := Event.image_eq_ok himage
  rw [Event.kept, if_neg hop] at hkept
  have hget : ∀ c, raw.get? c = before.get? c := by
    intro c
    rw [hraw c]
    split_ifs with hc
    · obtain ⟨x, hx⟩ := Dict.mem_keys_iff.1 (himageKeys c hc)
      obtain ⟨y, hy⟩ := Dict.mem_keys_iff.1 ((hkeys c).2 hc)
      rw [hx, hy, hafter image hkept c x hx, hbefore before hsome c y hy]
    · exact (Dict.get?_eq_none_iff.2 fun hin => hc ((hkeys c).1 hin)).symm
  have hjson : row.imageJson = some (canonicalJson before) := by
    rw [hrow]
    exact congrArg some (canonicalJson_inj.2 hget)
  rw [verifyBefore.eq_def, hsome]
  exact if_pos hjson

variable [ToString C] {store ensured : Store C V}

/-- A first application succeeds if its parts do. -/
theorem applyEvent_of_new {written : List (HistoryRow C V) × Bool}
    (hgeneration : event.identity.relationGeneration = some bundle.relationGeneration)
    (htoken : transactionOrderToken event.identity = .ok token)
    (hensure : ensureBundle bundle store = .ok ensured)
    (hnew : Unclaimed store.ledger event.pipeline event.targetTable event.eventId)
    (hwritten : applyNew bundle event token store.rows = .ok written) :
    ∃ store' result, applyEvent bundle event store = .ok (store', result) := by
  have hclaim : ensured.claim event.identity event.pipeline event.targetTable =
      .ok (false, { ensured with
        ledger := ensured.ledger ++
          [⟨event.pipeline, event.targetTable, event.identity, .applied⟩] }) := by
    rw [ensureBundle_eq_ok hensure, Store.claim, claimEventLedger]
    rw [show readEventLedger store.ledger event.pipeline event.targetTable event.identity.eventId =
      none from hnew]
  have hrows : ensured.rows = store.rows := by rw [ensureBundle_eq_ok hensure]
  rw [applyEvent, if_neg (not_not.2 hgeneration), htoken]
  change ∃ store' result, (ensureBundle bundle store >>= _) = _
  rw [hensure]
  change ∃ store' result, (ensured.claim event.identity event.pipeline event.targetTable >>= _) = _
  rw [hclaim]
  change ∃ store' result, (applyNew bundle event token ensured.rows >>= _) = _
  rw [hrows, hwritten]
  exact ⟨_, _, rfl⟩

/-- An event with its claim in the ledger is a replay. -/
theorem applyEvent_of_claimed {columns : List C}
    (hgeneration : event.identity.relationGeneration = some bundle.relationGeneration)
    (htoken : transactionOrderToken event.identity = .ok token)
    (hensure : ensureBundle bundle store = .ok ensured) (hcolumns : store.columns = some columns)
    (hold : readEventLedger store.ledger event.pipeline event.targetTable event.eventId =
      some ⟨event.pipeline, event.targetTable, event.identity, .applied⟩) :
    applyEvent bundle event store = .ok (store, ⟨event.eventId, true, token, false⟩) := by
  have hsame : ensured = store := by
    rw [ensureBundle_eq_ok hensure, hcolumns, Option.getD_some, ← hcolumns]
  have hclaim :
      store.claim event.identity event.pipeline event.targetTable = .ok (true, store) := by
    rw [Store.claim, claimEventLedger_replay hold (assertSameIdentity_self _ _)]
  rw [applyEvent, if_neg (not_not.2 hgeneration), htoken]
  change (ensureBundle bundle store >>= _) = _
  rw [hensure, hsame]
  change (store.claim event.identity event.pipeline event.targetTable >>= _) = _
  rw [hclaim]
  rfl

namespace Applied

variable {start : Store C V} {history events : List (Event C V)} {lineage : Lineage}

omit [ToString C] in
/-- The row of the last event of an identity is current. -/
theorem current_of_last (hlegal : LegalHistory lineage bundle history)
    (h : Applied bundle start history events store) {done rest before : List (Event C V)}
    (hsplit : history = done ++ rest) (hevents : ∀ event, event ∈ events ↔ event ∈ done)
    {last : Event C V} (hlast : eventsOf done last.sourceIdentity = before ++ [last])
    {row : HistoryRow C V} (hrow : row ∈ store.rows) (hisrow : last.IsRow bundle row) :
    row.current = true := by
  rw [h.chained.current_iff row hrow hisrow.isVersion, h.chained.ends row hrow hisrow.isVersion,
    nextAbove_eq_top_iff]
  intro t ht
  rw [hisrow.sourceIdentity, h.mem_affecting_iff] at ht
  obtain ⟨event, hevent, hid, rfl⟩ := ht
  have hin : event ∈ before ++ [last] := by
    rw [← hlast]
    exact List.mem_filter.2 ⟨(hevents event).1 hevent, by simpa using hid⟩
  have hordered : (before ++ [last]).Pairwise fun e e' => e.orderToken < e'.orderToken := by
    rw [← hlast]
    have hdone := hlegal.orderToken_lt
    rw [hsplit] at hdone
    exact (List.pairwise_append.1 hdone).1.filter _
  rw [hisrow.validFrom]
  rcases List.mem_append.1 hin with hin | hin
  · exact ((List.pairwise_append.1 hordered).2.2 event hin last (List.mem_singleton_self _)).le
  · rw [List.mem_singleton.1 hin]

/-- **The next event in source order is accepted**, if its images are complete. -/
theorem progress (hlegal : LegalHistory lineage bundle history)
    (h : Applied bundle start history events store) {done rest : List (Event C V)}
    (hsplit : history = done ++ event :: rest) (hevents : ∀ event, event ∈ events ↔ event ∈ done)
    {raw encoded : Image C V} (himage : event.image bundle = .ok (raw, encoded))
    (hverified : event.Verified bundle) (hensure : ensureBundle bundle store = .ok ensured) :
    ∃ store' result, applyEvent bundle event store = .ok (store', result) := by
  have hmem : event ∈ history := by simp [hsplit]
  have hstreamed := hlegal.streamed event hmem
  have hordered : ∀ event' ∈ done, event'.orderToken < event.orderToken := by
    have hpairs := hlegal.orderToken_lt
    rw [hsplit] at hpairs
    exact fun event' hevent' => (List.pairwise_append.1 hpairs).2.2 event' hevent' event (by simp)
  have hnotin : event ∉ events := fun hin => (hordered event ((hevents event).1 hin)).false
  have hfree : ∀ row ∈ store.rows, row.eventId ≠ event.eventId := by
    intro row hrow heq
    obtain ⟨event', hevent', hisrow⟩ := h.rows row hrow
    have hin : event' ∈ history := by simp [hsplit, (hevents event').1 hevent']
    exact hnotin (hlegal.eq_of_eventId hmem hin (heq.symm.trans hisrow.eventId) ▸ hevent')
  -- The row the events of the identity have left in the source.
  obtain ⟨final, htrace⟩ := hlegal.rows event.sourceIdentity
  have hfilter : eventsOf history event.sourceIdentity = eventsOf done event.sourceIdentity ++
      event :: eventsOf rest event.sourceIdentity := by
    simp [eventsOf, hsplit]
  rw [hfilter] at htrace
  obtain ⟨state, hdone, hrest⟩ := htrace.of_append
  cases hrest with
  | cons hstep _ =>
  suffices hnew : ∃ written, applyNew bundle event event.orderToken store.rows = .ok written by
    obtain ⟨written, hwritten⟩ := hnew
    exact applyEvent_of_new hstreamed.generation hstreamed.transactionOrderToken_ok hensure
      (h.unclaimed event hmem hnotin) hwritten
  have hcreates : state = none → event.operation.creates = true := by
    rintro rfl
    cases hstep with
    | create hop hafter => rw [hop]; rfl
  obtain hnil | ⟨before, last, hlast⟩ := (eventsOf done event.sourceIdentity).eq_nil_or_concat
  · have hstate : state = none := by
      rw [hnil] at hdone
      cases hdone
      rfl
    refine applyNew_of_first (fun row hrow hid => ?_) himage (hcreates hstate) hfree
    obtain ⟨event', hevent', hisrow⟩ := h.rows row hrow
    have hin : event' ∈ eventsOf done event.sourceIdentity :=
      List.mem_filter.2 ⟨(hevents event').1 hevent', by
        simpa using hisrow.sourceIdentity.symm.trans hid⟩
    rw [hnil] at hin
    exact absurd hin List.not_mem_nil
  · rw [List.concat_eq_append] at hlast
    have hin : last ∈ eventsOf done event.sourceIdentity := by simp [hlast]
    obtain ⟨hlastDone, hlastId⟩ := List.mem_filter.1 hin
    have hlastId' : last.sourceIdentity = event.sourceIdentity := by simpa using hlastId
    obtain ⟨row, hrow, hisrow⟩ := h.written last ((hevents last).2 hlastDone)
    have hcurrent := h.current_of_last hlegal hsplit hevents (hlastId' ▸ hlast) hrow hisrow
    refine applyNew_of_last h.chained hrow (hisrow.sourceIdentity.trans hlastId') hcurrent
      (hisrow.validFrom ▸ hordered last hlastDone) himage hfree fun hupdates => ?_
    cases state with
    | none => rw [hcreates rfl] at hupdates; simp at hupdates
    | some old =>
      obtain ⟨before', last', hlast', hop, hafter⟩ := exists_last_of_some hdone
      have hsame : last' = last := by
        rw [hlast] at hlast'
        exact (List.singleton_inj.1 (List.append_inj_right' hlast'.symm rfl))
      subst hsame
      have hbefore : AgreesWith event.before old := by
        cases hstep with
        | update hop' hbefore hafter' => exact hbefore
        | delete hop' hbefore => exact hbefore
      exact verifyBefore_of_agrees hisrow hop hafter hbefore hverified hupdates

/-! ### Runs -/

/-- **An accepted arrival** applies its events. -/
theorem run (hlegal : LegalHistory lineage bundle history)
    (h : Applied bundle start history events store) {arrival : List (Event C V)}
    (hsub : ∀ event ∈ arrival, event ∈ history) {store' : Store C V}
    (hrun : applyCalls store (arrival.map (.event bundle)) = .ok store') :
    ∃ events', Applied bundle start history events' store' ∧
      ∀ event, event ∈ events' ↔ event ∈ arrival ∨ event ∈ events := by
  induction arrival generalizing store events with
  | nil =>
    cases hrun
    exact ⟨events, h, by simp⟩
  | cons event arrival ih =>
    rw [List.map_cons, applyCalls, List.foldlM_cons] at hrun
    obtain ⟨next, hcall, hrest⟩ := except_bind_eq_ok.1 hrun
    obtain ⟨result, hevent⟩ := map_fst_eq_ok hcall
    obtain ⟨events', h', hmem⟩ := ih (h.step hlegal (hsub event List.mem_cons_self) hevent)
      (fun event' hevent' => hsub event' (List.mem_cons_of_mem _ hevent')) hrest
    refine ⟨events', h', fun event' => ?_⟩
    rw [hmem, List.mem_cons, List.mem_cons]
    tauto

/-- **The rest of the source order is accepted** once the events before it are applied. -/
theorem run_source (hlegal : LegalHistory lineage bundle history)
    (haccepted : ∀ event ∈ history, (∃ raw encoded, event.image bundle = .ok (raw, encoded)) ∧
      event.Verified bundle)
    (hensure : history ≠ [] → ensureBundle bundle start = .ok ensured) (rest : List (Event C V)) :
    ∀ {done events : List (Event C V)} {store : Store C V}, history = done ++ rest →
      Applied bundle start history events store → (∀ event, event ∈ events ↔ event ∈ done) →
      ∃ store' events', applyCalls store (rest.map (.event bundle)) = .ok store' ∧
        Applied bundle start history events' store' ∧
        ∀ event, event ∈ events' ↔ event ∈ history := by
  induction rest with
  | nil =>
    intro done events store hsplit h hevents
    refine ⟨store, events, rfl, h, fun event => ?_⟩
    rw [hevents, hsplit, List.append_nil]
  | cons event rest ih =>
    intro done events store hsplit h hevents
    have hmem : event ∈ history := by simp [hsplit]
    obtain ⟨⟨raw, encoded, himage⟩, hverified⟩ := haccepted event hmem
    have hready := ensureBundle_congr (hensure (List.ne_nil_of_mem hmem)) h.columns
    obtain ⟨next, result, hrun⟩ := h.progress hlegal hsplit hevents himage hverified hready
    have hsplit' : history = (done ++ [event]) ++ rest := by simp [hsplit]
    obtain ⟨store', events', hrest, h', hmem'⟩ := ih hsplit' (h.step hlegal hmem hrun)
      (fun event' => by
        rw [List.mem_cons, List.mem_append, List.mem_singleton, hevents]
        tauto)
    refine ⟨store', events', ?_, h', hmem'⟩
    rw [List.map_cons, applyCalls, List.foldlM_cons, Call.apply, hrun]
    exact hrest

end Applied

/-- **Confluence.** In one generation without truncates, an accepted arrival of events of a legal
source history, in any order and with any repetition, has made each of its events a replay; and
if it brought every event, the source order is accepted and ends in the same rows. -/
theorem applyCalls_confluent {start : Store C V} {history arrival : List (Event C V)}
    {lineage : Lineage} (hlegal : LegalHistory lineage bundle history) (hrows : start.rows = [])
    (hledger : ∀ event ∈ history,
      Unclaimed start.ledger event.pipeline event.targetTable event.eventId)
    (hsub : ∀ event ∈ arrival, event ∈ history)
    (hrun : applyCalls start (arrival.map (.event bundle)) = .ok store) :
    (∀ event ∈ arrival, ∃ result, result.replayed = true ∧
      applyEvent bundle event store = .ok (store, result)) ∧
    ((∀ event ∈ history, event ∈ arrival) → ∃ store',
      applyCalls start (history.map (.event bundle)) = .ok store' ∧
        store.rows.Perm store'.rows) := by
  have hinit : Applied bundle start history [] start := Applied.nil hrows hledger
  obtain ⟨events, h, hevents⟩ := hinit.run hlegal hsub hrun
  have hevents' : ∀ event, event ∈ events ↔ event ∈ arrival := fun event => by simp [hevents]
  have hensure : arrival ≠ [] → ∃ ensured, ensureBundle bundle start = .ok ensured := by
    cases harrival : arrival with
    | nil => simp
    | cons event rest =>
      intro _
      rw [harrival, List.map_cons, applyCalls, List.foldlM_cons] at hrun
      obtain ⟨next, hcall, -⟩ := except_bind_eq_ok.1 hrun
      obtain ⟨result, hevent⟩ := map_fst_eq_ok hcall
      obtain ⟨-, ensured, -, hensure, -⟩ := applyEvent_cases hevent
      exact ⟨ensured, hensure⟩
  constructor
  · intro event hevent
    have hin : event ∈ events := (hevents' event).2 hevent
    have hstreamed := hlegal.streamed event (hsub event hevent)
    obtain ⟨ensured, hstart⟩ := hensure (List.ne_nil_of_mem hevent)
    obtain ⟨columns, hcolumns⟩ := h.created (List.ne_nil_of_mem hin)
    exact ⟨_, rfl, applyEvent_of_claimed hstreamed.generation hstreamed.transactionOrderToken_ok
      (ensureBundle_congr hstart h.columns) hcolumns (h.claimed event hin)⟩
  · intro hall
    have haccepted : ∀ event ∈ history,
        (∃ raw encoded, event.image bundle = .ok (raw, encoded)) ∧ event.Verified bundle := by
      intro event hevent
      have hin : event ∈ events := (hevents' event).2 (hall event hevent)
      obtain ⟨row, -, raw, encoded, himage, -⟩ := h.written event hin
      exact ⟨⟨raw, encoded, himage⟩, h.verified event hin⟩
    have hready : ∃ ensured, history ≠ [] → ensureBundle bundle start = .ok ensured := by
      by_cases hnil : history = []
      · exact ⟨start, fun hne => absurd hnil hne⟩
      · obtain ⟨event, hevent⟩ := List.exists_mem_of_ne_nil history hnil
        obtain ⟨ensured, hstart⟩ := hensure (List.ne_nil_of_mem (hall event hevent))
        exact ⟨ensured, fun _ => hstart⟩
    obtain ⟨ensured, hready⟩ := hready
    obtain ⟨store', events', hsource, h', hmem'⟩ :=
      Applied.run_source hlegal haccepted hready history (List.nil_append _).symm hinit (by simp)
    refine ⟨store', hsource, h.rows_perm h' fun event => ?_⟩
    rw [hevents', hmem']
    exact ⟨hsub event, hall event⟩

end CdcFlight.Scd2

namespace CdcFlight.Accounts

open Lib Scd2

/-- The source of the account events. -/
def lineage : Lineage := ⟨"p", "7401", 1⟩

/-- An insert, an update that changes nothing, an update, a deletion and a second insert. -/
def sourceOrder : List (Event Column String) :=
  [versionAt 1 .create none (some (row "1" "a" "x")),
    versionAt 5 .update (some (row "1" "a" "x")) (some (row "1" "a" "x")),
    versionAt 6 .update (some (row "1" "a" "x")) (some (row "1" "c" "x")),
    versionAt 7 .delete (some (row "1" "c" "x")) none,
    versionAt 8 .create none (some (row "1" "b" "x"))]

/-- The events with one update late and two delivered twice. -/
def shuffled : List (Event Column String) :=
  [versionAt 1 .create none (some (row "1" "a" "x")),
    versionAt 6 .update (some (row "1" "a" "x")) (some (row "1" "c" "x")),
    versionAt 1 .create none (some (row "1" "a" "x")),
    versionAt 5 .update (some (row "1" "a" "x")) (some (row "1" "a" "x")),
    versionAt 7 .delete (some (row "1" "c" "x")) none,
    versionAt 6 .update (some (row "1" "a" "x")) (some (row "1" "c" "x")),
    versionAt 8 .create none (some (row "1" "b" "x"))]

theorem versionAt_streamed {lsn : ℕ} (hlsn : lsn < 2 ^ 64) (operation : RowOperation)
    (before after : Option (Row Column String)) :
    (versionAt lsn operation before after).StreamedBy lineage bundle
      (versionAt lsn operation before after).position.1
      (versionAt lsn operation before after).position.2 where
  pipeline := rfl
  targetTable := rfl
  cluster_ne := by decide
  generation_ne := by decide
  cluster := rfl
  timeline := rfl
  generation := rfl
  commitLsn := rfl
  totalOrder := rfl
  lsn_lt := hlsn
  order_lt := by change 1 < 2 ^ 63; decide
  eventId := ⟨toString lsn, rfl, rfl⟩

theorem agreesWith_image (r : Row Column String) : AgreesWith (some (image r)) r := by
  rintro image' himage c x hx
  cases himage
  have hget : (image r).get? c = some (r c) := by
    cases c <;> rfl
  rw [hget] at hx
  exact (Option.some.inj hx).symm

theorem sourceOrder_legal : LegalHistory lineage bundle sourceOrder where
  streamed := by
    intro event hevent
    simp only [sourceOrder, List.mem_cons, List.not_mem_nil, or_false] at hevent
    rcases hevent with rfl | rfl | rfl | rfl | rfl
    all_goals exact versionAt_streamed (by decide) _ _ _
  ordered := by
    have hlt : ∀ {l l' : ℕ} {o o' : RowOperation} {b b' a a' : Option (Row Column String)}, l < l' →
        (versionAt l o b a).Precedes (versionAt l' o' b' a') := fun h => Or.inl h
    simp only [sourceOrder, List.pairwise_cons, List.mem_cons, List.not_mem_nil, or_false,
      forall_eq_or_imp, forall_eq, List.Pairwise.nil, false_imp_iff, implies_true, and_true]
    refine ⟨⟨?_, ?_, ?_, ?_⟩, ⟨?_, ?_, ?_⟩, ⟨?_, ?_⟩, ?_⟩
    all_goals exact hlt (by decide)
  rows := by
    intro identity
    by_cases hid : (versionAt 1 .create none none).sourceIdentity = identity
    · have hall : eventsOf sourceOrder identity = sourceOrder := by
        refine List.filter_eq_self.2 fun event hevent => ?_
        simp only [sourceOrder, List.mem_cons, List.not_mem_nil, or_false] at hevent
        rcases hevent with rfl | rfl | rfl | rfl | rfl
        all_goals exact decide_eq_true hid
      rw [hall]
      exact ⟨_, .cons (.create rfl (agreesWith_image _)) <|
        .cons (.update rfl (agreesWith_image _) (agreesWith_image _)) <|
        .cons (.update rfl (agreesWith_image _) (agreesWith_image _)) <|
        .cons (.delete rfl (agreesWith_image _)) <|
        .cons (.create rfl (agreesWith_image _)) (.nil _)⟩
    · have hnone : eventsOf sourceOrder identity = [] := by
        refine List.filter_eq_nil_iff.2 fun event hevent => ?_
        simp only [sourceOrder, List.mem_cons, List.not_mem_nil, or_false] at hevent
        rcases hevent with rfl | rfl | rfl | rfl | rfl
        all_goals exact fun hdec => hid (of_decide_eq_true hdec)
      rw [hnone]
      exact ⟨none, .nil _⟩

theorem shuffled_confluent : ∃ store store',
    applyCalls {} (shuffled.map (.event bundle)) = .ok store ∧
      applyCalls {} (sourceOrder.map (.event bundle)) = .ok store' ∧
      store.rows.Perm store'.rows := by
  have hok : (applyCalls {} (shuffled.map (.event bundle))).toOption.isSome = true := by
    decide +kernel
  cases hrun : applyCalls {} (shuffled.map (.event bundle)) with
  | error e =>
    rw [hrun] at hok
    cases hok
  | ok store =>
    have hsub : ∀ event ∈ shuffled, event ∈ sourceOrder := by
      simp [shuffled, sourceOrder]
    have hall : ∀ event ∈ sourceOrder, event ∈ shuffled := by
      simp [shuffled, sourceOrder]
    have hunclaimed : ∀ event ∈ sourceOrder, Unclaimed ([] : List LedgerRow) event.pipeline
        event.targetTable event.eventId := fun event _ => unclaimed_iff.2 (List.forall_mem_nil _)
    obtain ⟨store', hsource, hperm⟩ :=
      (applyCalls_confluent sourceOrder_legal rfl hunclaimed hsub hrun).2 hall
    exact ⟨store, store', rfl, hsource, hperm⟩

end CdcFlight.Accounts
