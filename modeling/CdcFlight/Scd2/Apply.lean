import CdcFlight.Scd2.History
import CdcFlight.Lib.Run

/-!
# What a call on a history can do

Inversion of `apply_event` and `apply_truncate`: a call that returns is a replay, which leaves
the history as it is, or a first application, which closes at most one version of the identity
(every current version, for a truncate) and adds one row. The places a version can go to are
stated over the rows of the table, without the order in which they were read.

## Main definitions

* `CdcFlight.Scd2.IsPredecessor`, `CdcFlight.Scd2.IsSuccessor`: the neighbours of a token.
* `CdcFlight.Scd2.Place`: where a new version may go.

## Main results

* `CdcFlight.Scd2.applyEvent_cases`, `CdcFlight.Scd2.applyTruncate_cases`.
-/

namespace CdcFlight.Scd2

open Lib

variable {C V : Type} [DecidableEq C] [DecidableEq V] [ToString C]
  {bundle : Bundle C V} {event : Event C V} {token : String} {rows rows' : List (HistoryRow C V)}
  {store store' : Store C V}

/-! ### Neighbours of a token -/

/-- The latest version of an identity before a token. -/
structure IsPredecessor (rows : List (HistoryRow C V)) (identity : SourceIdentity C V)
    (token : String) (row : HistoryRow C V) : Prop where
  mem : row ∈ rows
  sourceIdentity : row.sourceIdentity = identity
  lt : row.validFrom < token
  greatest : ∀ row' ∈ rows, row'.sourceIdentity = identity → row'.validFrom < token →
    row'.validFrom ≤ row.validFrom

/-- The first version of an identity after a token. -/
structure IsSuccessor (rows : List (HistoryRow C V)) (identity : SourceIdentity C V)
    (token : String) (row : HistoryRow C V) : Prop where
  mem : row ∈ rows
  sourceIdentity : row.sourceIdentity = identity
  lt : token < row.validFrom
  least : ∀ row' ∈ rows, row'.sourceIdentity = identity → token < row'.validFrom →
    row.validFrom ≤ row'.validFrom

instance (rows : List (HistoryRow C V)) (identity : SourceIdentity C V) (token : String)
    (row : HistoryRow C V) : Decidable (IsPredecessor rows identity token row) :=
  decidable_of_iff (row ∈ rows ∧ row.sourceIdentity = identity ∧ row.validFrom < token ∧
      ∀ row' ∈ rows, row'.sourceIdentity = identity → row'.validFrom < token →
        row'.validFrom ≤ row.validFrom)
    ⟨fun h => ⟨h.1, h.2.1, h.2.2.1, h.2.2.2⟩, fun h => ⟨h.1, h.2, h.3, h.4⟩⟩

instance (rows : List (HistoryRow C V)) (identity : SourceIdentity C V) (token : String)
    (row : HistoryRow C V) : Decidable (IsSuccessor rows identity token row) :=
  decidable_of_iff (row ∈ rows ∧ row.sourceIdentity = identity ∧ token < row.validFrom ∧
      ∀ row' ∈ rows, row'.sourceIdentity = identity → token < row'.validFrom →
        row.validFrom ≤ row'.validFrom)
    ⟨fun h => ⟨h.1, h.2.1, h.2.2.1, h.2.2.2⟩, fun h => ⟨h.1, h.2, h.3, h.4⟩⟩

omit [ToString C] in
@[simp] theorem mem_historyRows {identity : SourceIdentity C V} {row : HistoryRow C V} :
    row ∈ historyRows rows identity ↔ row ∈ rows ∧ row.sourceIdentity = identity := by
  simp [historyRows]

omit [ToString C] in
theorem pairwise_historyRows (rows : List (HistoryRow C V)) (identity : SourceIdentity C V) :
    (historyRows rows identity).Pairwise (·.validFrom ≤ ·.validFrom) := by
  have htrans : IsTrans (HistoryRow C V) (·.validFrom ≤ ·.validFrom) := ⟨fun _ _ _ => le_trans⟩
  have htotal : Std.Total (α := HistoryRow C V) (·.validFrom ≤ ·.validFrom) :=
    ⟨fun row row' => le_total row.validFrom row'.validFrom⟩
  exact List.pairwise_insertionSort _ _

omit [ToString C] in
theorem isPredecessor_of_predecessor {identity : SourceIdentity C V} {row : HistoryRow C V}
    (h : predecessor (historyRows rows identity) token = some row) :
    IsPredecessor rows identity token row := by
  have hmem : row ∈ historyRows rows identity :=
    List.mem_reverse.1 (List.mem_of_find?_eq_some h)
  have hlt : row.validFrom < token := by simpa using List.find?_some h
  refine ⟨(mem_historyRows.1 hmem).1, (mem_historyRows.1 hmem).2, hlt,
    fun row' hrow' hid hlt' => ?_⟩
  -- The rows read in reverse are decreasing, and the ones before the first match are not below.
  have hsorted :
      (historyRows rows identity).reverse.Pairwise (fun a b => b.validFrom ≤ a.validFrom) :=
    List.pairwise_reverse.2 (pairwise_historyRows rows identity)
  obtain ⟨-, before, rest, hsplit, hbefore⟩ := List.find?_eq_some_iff_append.1 h
  have hin : row' ∈ before ++ row :: rest := by
    rw [← hsplit, List.mem_reverse]
    exact mem_historyRows.2 ⟨hrow', hid⟩
  rw [hsplit] at hsorted
  rcases List.mem_append.1 hin with hin | hin
  · simpa [hlt'] using hbefore row' hin
  · rcases List.mem_cons.1 hin with rfl | hin
    · exact le_rfl
    · exact (List.pairwise_cons.1 (List.pairwise_append.1 hsorted).2.1).1 row' hin

omit [ToString C] in
theorem isSuccessor_of_successor {identity : SourceIdentity C V} {row : HistoryRow C V}
    (h : successor (historyRows rows identity) token = some row) :
    IsSuccessor rows identity token row := by
  have hmem : row ∈ historyRows rows identity := List.mem_of_find?_eq_some h
  have hlt : token < row.validFrom := by simpa using List.find?_some h
  refine ⟨(mem_historyRows.1 hmem).1, (mem_historyRows.1 hmem).2, hlt,
    fun row' hrow' hid hlt' => ?_⟩
  have hsorted := pairwise_historyRows rows identity
  obtain ⟨-, before, rest, hsplit, hbefore⟩ := List.find?_eq_some_iff_append.1 h
  have hin : row' ∈ before ++ row :: rest := by
    rw [← hsplit]
    exact mem_historyRows.2 ⟨hrow', hid⟩
  rw [hsplit] at hsorted
  rcases List.mem_append.1 hin with hin | hin
  · simpa [hlt'] using hbefore row' hin
  · rcases List.mem_cons.1 hin with rfl | hin
    · exact le_rfl
    · exact (List.pairwise_cons.1 (List.pairwise_append.1 hsorted).2.1).1 row' hin

omit [DecidableEq C] [DecidableEq V] [ToString C] in
theorem successor_eq_none_iff :
    successor rows token = none ↔ ∀ row ∈ rows, row.validFrom ≤ token := by
  rw [successor, List.find?_eq_none]
  simp only [decide_eq_true_eq, not_lt]

omit [DecidableEq C] [DecidableEq V] [ToString C] in
theorem predecessor_eq_none_iff :
    predecessor rows token = none ↔ ∀ row ∈ rows, token ≤ row.validFrom := by
  rw [predecessor, List.find?_eq_none]
  simp only [List.mem_reverse, decide_eq_true_eq, not_lt]

/-! ### Parts of a call -/

omit [DecidableEq V] in
/-- The bundle checks only create the history table. -/
theorem ensureBundle_eq_ok (h : ensureBundle bundle store = .ok store') :
    store' = { store with columns := some (store.columns.getD bundle.columns.keys) } := by
  simp only [ensureBundle] at h
  split_ifs at h with h₁ h₂ h₃ h₄
  · simp [Bundle.refused] at h
  · simp [Bundle.refused] at h
  · cases h
    rfl

omit [DecidableEq V] in
/-- The bundle checks read the columns of the history table alone. -/
theorem ensureBundle_congr {store₂ : Store C V} (h : ensureBundle bundle store = .ok store')
    (hcolumns : store₂.columns.getD bundle.columns.keys = store.columns.getD bundle.columns.keys) :
    ensureBundle bundle store₂ =
      .ok { store₂ with columns := some (store.columns.getD bundle.columns.keys) } := by
  simp only [ensureBundle, hcolumns] at h ⊢
  split_ifs at h ⊢ with h₁ h₂ h₃ h₄
  · simp [Bundle.refused] at h
  · simp [Bundle.refused] at h
  · rfl

omit [DecidableEq C] [DecidableEq V] [ToString C] in
/-- A claim is a replay, which changes nothing, or records the identity. -/
theorem claim_cases {identity : EventIdentity} {pipeline targetTable : String} {replayed : Bool}
    (h : store.claim identity pipeline targetTable = .ok (replayed, store')) :
    (replayed = true ∧ ¬ Unclaimed store.ledger pipeline targetTable identity.eventId ∧
        store' = store) ∨
      (replayed = false ∧ Unclaimed store.ledger pipeline targetTable identity.eventId ∧
        store' = { store with
          ledger := store.ledger ++ [{ pipeline, targetTable, identity }] }) := by
  rw [Store.claim] at h
  cases hclaim : claimEventLedger store.ledger identity pipeline targetTable identity.sourceLsn with
  | error collision => simp [hclaim] at h
  | ok result =>
    obtain ⟨replayed', ledger⟩ := result
    simp only [hclaim, Except.ok.injEq, Prod.mk.injEq] at h
    obtain ⟨rfl, rfl⟩ := h
    rcases claimEventLedger_cases hclaim with
      ⟨row, hrow, hp, ht, hid, -, rfl, rfl⟩ | ⟨hnew, rfl, rfl⟩
    · exact Or.inl ⟨rfl, fun hnew => unclaimed_iff.1 hnew row hrow ⟨hp, ht, hid⟩, rfl⟩
    · exact Or.inr ⟨rfl, hnew, rfl⟩

omit [DecidableEq C] [DecidableEq V] [ToString C] in
theorem insertRow_eq_ok {row : HistoryRow C V} (h : insertRow rows row = .ok rows') :
    (∀ row' ∈ rows, row'.eventId ≠ row.eventId) ∧ rows' = rows ++ [row] := by
  rw [insertRow] at h
  split_ifs at h with hdup
  cases h
  exact ⟨by simpa using hdup, rfl⟩

omit [DecidableEq C] [DecidableEq V] [ToString C] in
/-- The rows closed by event id keep their event ids. -/
theorem eventId_closeRow {eventId : String} {row : HistoryRow C V}
    (h : ∀ row' ∈ closeRow rows eventId token, row'.eventId ≠ row.eventId) :
    ∀ row' ∈ rows, row'.eventId ≠ row.eventId := by
  intro row' hrow'
  have := h (if row'.eventId = eventId then row'.close token else row')
    (List.mem_map.2 ⟨row', hrow', rfl⟩)
  split_ifs at this with hid
  · exact this
  · exact this

/-! ### The place of a version -/

/-- What `apply_event` has established about the place it puts a version at. -/
inductive Place (rows : List (HistoryRow C V)) (event : Event C V) (token : String) :
    Splice C V → Prop
  /-- The first version of the identity. -/
  | first (hnone : ∀ row ∈ rows, row.sourceIdentity ≠ event.sourceIdentity)
      (hcreates : event.operation.creates = true) : Place rows event token .fresh
  /-- The first version after every truncate, where no version is current. -/
  | restart (hclosed :
      ∀ row ∈ rows, row.sourceIdentity = event.sourceIdentity → row.current = false)
      (hcreates : event.operation.creates = true) {boundary : String}
      (hboundary : truncateBoundary rows = some boundary) (hlt : boundary < token) :
      Place rows event token .fresh
  /-- Behind the current version. -/
  | after {current : HistoryRow C V} (hmem : current ∈ rows)
      (hid : current.sourceIdentity = event.sourceIdentity) (hcurrent : current.current = true)
      (hlt : current.validFrom < token)
      (hverified : event.operation.creates = false → ∃ row,
        IsPredecessor rows event.sourceIdentity token row ∧ verifyBefore event row = .ok ()) :
      Place rows event token (.after current)
  /-- Between two versions, before the current one. -/
  | between {pred succ current : HistoryRow C V}
      (hpred : IsPredecessor rows event.sourceIdentity token pred)
      (hsucc : IsSuccessor rows event.sourceIdentity token succ) (hmem : current ∈ rows)
      (hid : current.sourceIdentity = event.sourceIdentity) (hcurrent : current.current = true)
      (hlt : token < current.validFrom)
      (hverified : event.operation.creates = false → verifyBefore event pred = .ok ()) :
      Place rows event token (.between pred succ.validFrom)

omit [ToString C] [DecidableEq C] [DecidableEq V] in
private theorem currentRow_eq_ok {current : Option (HistoryRow C V)}
    (h : currentRow event rows = .ok current) :
    (current = none ∧ ∀ row ∈ rows, row.current = false) ∨
      ∃ row ∈ rows, row.current = true ∧ current = some row := by
  rw [currentRow] at h
  split at h
  · next hnil =>
    cases h
    refine Or.inl ⟨rfl, fun row hrow => ?_⟩
    simpa using List.filter_eq_nil_iff.1 hnil row hrow
  · next row hone =>
    cases h
    have hmem : row ∈ rows.filter (·.current) := by rw [hone]; exact List.mem_singleton_self row
    exact Or.inr ⟨row, (List.mem_filter.1 hmem).1, by simpa using (List.mem_filter.1 hmem).2, rfl⟩
  · simp [Event.refused] at h

omit [ToString C] in
private theorem checkPredecessor_eq_ok {pred : Option (HistoryRow C V)} {isLate : Bool}
    (h : checkPredecessor event pred isLate = .ok ()) (hupdates : event.operation.creates = false) :
    ∃ row, pred = some row ∧ verifyBefore event row = .ok () := by
  rw [checkPredecessor.eq_def, if_neg (by simp [hupdates])] at h
  cases pred with
  | none => simp [Event.refused] at h
  | some row => exact ⟨row, rfl, h⟩

omit [ToString C] in
/-- `splice` over the rows of an identity returns a place. -/
theorem place_of_splice {current : Option (HistoryRow C V)} {place : Splice C V}
    (hcurrent : currentRow event (historyRows rows event.sourceIdentity) = .ok current)
    (hexact : ∀ row ∈ rows, row.sourceIdentity = event.sourceIdentity → row.validFrom ≠ token)
    (h : splice event token (historyRows rows event.sourceIdentity) current
      (truncateBoundary rows) = .ok place) : Place rows event token place := by
  rw [splice.eq_def] at h
  split_ifs at h with hempty hcreates hrestart
  · cases h
    refine .first (fun row hrow hid => ?_) hcreates
    have hmem : row ∈ historyRows rows event.sourceIdentity := mem_historyRows.2 ⟨hrow, hid⟩
    rw [List.isEmpty_iff.1 hempty] at hmem
    exact absurd hmem List.not_mem_nil
  · cases h
  · cases h
    simp only [Bool.and_eq_true, Option.isNone_iff_eq_none] at hrestart
    obtain ⟨⟨rfl, hcreates⟩, hboundary⟩ := hrestart
    obtain ⟨boundary, hb, hlt⟩ := (Option.any_eq_true _ _).1 hboundary
    rcases currentRow_eq_ok hcurrent with ⟨-, hclosed⟩ | ⟨row, -, -, hrow⟩
    · exact .restart (fun row hrow hid => hclosed row (mem_historyRows.2 ⟨hrow, hid⟩)) hcreates hb
        (by simpa using hlt)
    · simp at hrow
  · obtain ⟨_, hcheck, h⟩ := except_bind_eq_ok.1 h
    rcases currentRow_eq_ok hcurrent with ⟨rfl, -⟩ | ⟨row, hrow, hrowcurrent, rfl⟩
    · simp [Event.refused] at h
    · obtain ⟨hmem, hid⟩ := mem_historyRows.1 hrow
      dsimp only at h
      split_ifs at h with hlate hnotNewer
      · -- A late event has a verified predecessor, and the current version is above it.
        cases hpred : predecessor (historyRows rows event.sourceIdentity) token with
        | none => simp [hpred, Event.refused] at h
        | some pred =>
          rw [hpred] at h hcheck
          cases hsucc : successor (historyRows rows event.sourceIdentity) token with
          | none => exact absurd hlate (successor_eq_none_iff.1 hsucc row hrow).not_gt
          | some succ =>
            rw [hsucc] at h
            cases h
            refine .between (isPredecessor_of_predecessor hpred) (isSuccessor_of_successor hsucc)
              hmem hid hrowcurrent hlate fun hupdates => ?_
            obtain ⟨pred', hpred', hverified⟩ := checkPredecessor_eq_ok hcheck hupdates
            cases hpred'
            exact hverified
      · cases h
      · cases h
        have hlt : row.validFrom < token :=
          lt_of_le_of_ne (not_lt.1 hlate) (hexact row hmem hid)
        refine .after hmem hid hrowcurrent hlt fun hupdates => ?_
        obtain ⟨pred, hpred, hverified⟩ := checkPredecessor_eq_ok hcheck hupdates
        exact ⟨pred, isPredecessor_of_predecessor hpred, hverified⟩

/-! ### Calls -/

/-- The event id of the version a place closes, if any. -/
def Splice.closes : Splice C V → Option String
  | .fresh => none
  | .after current => some current.eventId
  | .between pred _ => some pred.eventId

/-- The end of the version written at a place. -/
def Splice.validTo : Splice C V → WithTop String
  | .fresh => ⊤
  | .after _ => ⊤
  | .between _ validTo => validTo

/-- The history after a version is written at a place. -/
def Splice.result (place : Splice C V) (rows : List (HistoryRow C V)) (event : Event C V)
    (token : String) (raw encoded : Image C V) : List (HistoryRow C V) :=
  (match place.closes with
    | none => rows
    | some eventId => closeRow rows eventId token) ++
      [event.historyRow token raw encoded place.validTo place.isCurrent]

omit [ToString C] in
theorem writeSplice_eq_ok {raw encoded : Image C V} {place : Splice C V}
    (h : writeSplice rows token (event.historyRow token raw encoded) place = .ok rows') :
    (∀ row ∈ rows, row.eventId ≠ event.eventId) ∧
      rows' = place.result rows event token raw encoded := by
  cases place with
  | fresh => exact insertRow_eq_ok h
  | after current =>
    obtain ⟨hid, hrows⟩ := insertRow_eq_ok h
    exact ⟨eventId_closeRow hid, hrows⟩
  | between pred validTo =>
    obtain ⟨hid, hrows⟩ := insertRow_eq_ok h
    exact ⟨eventId_closeRow hid, hrows⟩

/-- A version written: the facts checked, and the history afterwards. -/
structure Written (bundle : Bundle C V) (event : Event C V) (token : String)
    (rows rows' : List (HistoryRow C V)) (place : Splice C V) (raw encoded : Image C V) :
    Prop where
  exact_free : ∀ row ∈ rows, row.sourceIdentity = event.sourceIdentity → row.validFrom ≠ token
  eventId_free : ∀ row ∈ rows, row.eventId ≠ event.eventId
  image : event.image bundle = .ok (raw, encoded)
  placed : Place rows event token place
  rows_eq : rows' = place.result rows event token raw encoded

omit [ToString C] in
theorem applyNew_eq_ok {current : Bool}
    (h : applyNew bundle event token rows = .ok (rows', current)) :
    ∃ place raw encoded, Written bundle event token rows rows' place raw encoded := by
  rw [applyNew] at h
  obtain ⟨current, hcurrent, h⟩ := except_bind_eq_ok.1 h
  split_ifs at h with hexact
  · cases h
  · obtain ⟨⟨raw, encoded⟩, himage, h⟩ := except_bind_eq_ok.1 h
    obtain ⟨place, hplace, h⟩ := except_bind_eq_ok.1 h
    obtain ⟨rows₁, hwrite, h⟩ := except_bind_eq_ok.1 h
    rw [except_pure_eq_ok, Prod.mk.injEq] at h
    obtain ⟨rfl, rfl⟩ := h
    have hfree : ∀ row ∈ rows, row.sourceIdentity = event.sourceIdentity →
        row.validFrom ≠ token := fun row hrow hid heq =>
      hexact (List.any_eq_true.2 ⟨row, mem_historyRows.2 ⟨hrow, hid⟩, by simpa using heq⟩)
    obtain ⟨hids, hrows⟩ := writeSplice_eq_ok hwrite
    exact ⟨place, raw, encoded, hfree, hids, himage, place_of_splice hcurrent hfree hplace, hrows⟩

/-- **What `apply_event` can do**: replay, or write one version at its place. -/
theorem applyEvent_cases {result : ApplyResult}
    (h : applyEvent bundle event store = .ok (store', result)) :
    ∃ token ensured, transactionOrderToken event.identity = .ok token ∧
      ensureBundle bundle store = .ok ensured ∧ store'.columns = ensured.columns ∧
      ((¬ Unclaimed store.ledger event.pipeline event.targetTable event.eventId ∧
          store'.rows = store.rows ∧ store'.ledger = store.ledger) ∨
        (Unclaimed store.ledger event.pipeline event.targetTable event.eventId ∧
          store'.ledger = store.ledger ++
            [⟨event.pipeline, event.targetTable, event.identity, .applied⟩] ∧
          ∃ place raw encoded,
            Written bundle event token store.rows store'.rows place raw encoded)) := by
  rw [applyEvent] at h
  split_ifs at h with hgen
  · cases h
  · obtain ⟨token, htoken, h⟩ := except_bind_eq_ok.1 h
    obtain ⟨ensured, hensure, h⟩ := except_bind_eq_ok.1 h
    obtain ⟨⟨replayed, claimed⟩, hclaim, hrest⟩ := except_bind_eq_ok.1 h
    have hrows : ensured.rows = store.rows := by rw [ensureBundle_eq_ok hensure]
    have hledger : ensured.ledger = store.ledger := by rw [ensureBundle_eq_ok hensure]
    refine ⟨token, ensured, htoken, hensure, ?_⟩
    rcases claim_cases hclaim with ⟨rfl, hold, rfl⟩ | ⟨rfl, hnew, rfl⟩
    · rw [if_pos rfl, except_pure_eq_ok, Prod.mk.injEq] at hrest
      rw [← hrest.1]
      rw [hledger] at hold
      exact ⟨rfl, Or.inl ⟨hold, hrows, hledger⟩⟩
    · rw [if_neg (by simp)] at hrest
      obtain ⟨⟨rows₁, current⟩, hnewRows, hrest⟩ := except_bind_eq_ok.1 hrest
      rw [except_pure_eq_ok, Prod.mk.injEq] at hrest
      rw [← hrest.1]
      rw [hledger] at hnew
      rw [hrows] at hnewRows
      exact ⟨rfl, Or.inr ⟨hnew, by rw [hledger], applyNew_eq_ok hnewRows⟩⟩

omit [DecidableEq V] in
/-- **What `apply_truncate` can do**: replay, or close the current versions and add a marker. -/
theorem applyTruncate_cases {change : TableEvent} {result : ApplyResult}
    (h : applyTruncate bundle change store = .ok (store', result)) :
    ∃ token, transactionOrderToken change.identity = .ok token ∧
      (store'.rows = store.rows ∨
        (Unclaimed store.ledger change.pipeline change.targetTable change.identity.eventId ∧
          (∀ row ∈ store.rows, row.eventId ≠ change.identity.eventId) ∧
          store'.rows = closeCurrent store.rows token ++ [change.marker bundle token])) := by
  rw [applyTruncate] at h
  obtain ⟨ensured, hensure, h⟩ := except_bind_eq_ok.1 h
  obtain ⟨token, htoken, h⟩ := except_bind_eq_ok.1 h
  obtain ⟨⟨replayed, claimed⟩, hclaim, hrest⟩ := except_bind_eq_ok.1 h
  have hrows : ensured.rows = store.rows := by rw [ensureBundle_eq_ok hensure]
  have hledger : ensured.ledger = store.ledger := by rw [ensureBundle_eq_ok hensure]
  refine ⟨token, htoken, ?_⟩
  rcases claim_cases hclaim with ⟨rfl, -, rfl⟩ | ⟨rfl, hnew, rfl⟩
  · rw [if_pos rfl, except_pure_eq_ok, Prod.mk.injEq] at hrest
    rw [← hrest.1]
    exact Or.inl hrows
  · rw [if_neg (by simp)] at hrest
    obtain ⟨rows₁, hinsert, hrest⟩ := except_bind_eq_ok.1 hrest
    rw [except_pure_eq_ok, Prod.mk.injEq] at hrest
    rw [← hrest.1]
    rw [hledger] at hnew
    obtain ⟨hids, hresult⟩ := insertRow_eq_ok hinsert
    refine Or.inr ⟨hnew, fun row hrow => ?_, by rw [hresult]; simp [hrows]⟩
    have hmem : (if row.current then row.close token else row) ∈ closeCurrent ensured.rows token :=
      List.mem_map.2 ⟨row, by rw [hrows]; exact hrow, rfl⟩
    have hne := hids _ hmem
    split_ifs at hne with hcurrent
    · exact hne
    · exact hne

end CdcFlight.Scd2
