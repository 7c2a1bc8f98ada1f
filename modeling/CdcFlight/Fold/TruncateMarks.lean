import CdcFlight.Fold.StartRows

/-!
# The marks of truncates

A truncate marks how many concrete entries the fold drops. After the first truncate of a group these
are the rows of the source; at the first one the rows that the destination still holds are missing,
and those it holds although the source no longer does are counted with it.

## Main definitions

* `CdcFlight.truncateCounts`: the rows that each truncate of a history removes at the source.
* `CdcFlight.Layout.Follows`: a relation between fold and source that records preserve.

## Main results

* `CdcFlight.Layout.Follows.marks`: the marks of a whole history.
-/

namespace CdcFlight

open Lib

section Source

variable {C V : Type}

/-- Whether an operation is a truncate. -/
def SourceEvent.isTruncate : SourceEvent C V → Bool
  | .truncate => true
  | _ => false

/-- The rows that each truncate of a history removes from a table of `n` rows. -/
def truncateCounts : ℕ → List (SourceEvent C V) → List ℕ
  | _, [] => []
  | n, .insert _ :: events => truncateCounts (n + 1) events
  | n, .update _ _ :: events => truncateCounts n events
  | n, .delete _ :: events => truncateCounts (n - 1) events
  | n, .truncate :: events => n :: truncateCounts 0 events

/-- The operations before the first truncate. -/
def beforeTruncate (events : List (SourceEvent C V)) : List (SourceEvent C V) :=
  events.takeWhile fun event => !event.isTruncate

end Source

namespace Layout

variable {C V : Type} [DecidableEq C] [DecidableEq V] [ColumnValue V] [ToString C]
  {layout : Layout C} {D S S' : Multiset (Row C V)} {item item' : TableWork C V}
  {probe : Probe C V} {commitId : ℕ} {event : SourceEvent C V} {e : PendingRecord C V}
  {eventId : String} {events : List (SourceEvent C V)}
  {records : List (PendingRecord C V × String)} {r : Row C V}

omit [DecidableEq C] [DecidableEq V] [ColumnValue V] [ToString C] in
/-- The counts follow the rows of the source. -/
theorem truncateCounts_of_step (hstep : layout.Step S event S') (hevent : event ≠ .truncate)
    (events : List (SourceEvent C V)) :
    truncateCounts S.card (event :: events) = truncateCounts S'.card events := by
  cases hstep with
  | insert _ => rw [truncateCounts, Multiset.card_cons]
  | update _ _ => rw [truncateCounts, Multiset.card_cons, Multiset.card_cons]
  | delete => rw [truncateCounts, Multiset.card_cons, Nat.add_sub_cancel]
  | truncate => exact absurd rfl hevent

/-! ### One record -/

omit [ToString C] in
/-- The operation of a row event leaves the truncates alone. -/
theorem operation_beside {q : RowPatch C V} (hinc : item.incremental = false)
    (hevent : event ≠ .truncate)
    (hrun : (operation layout probe e q event).run item = .ok () item') :
    ∃ k, Beside k item item' := by
  cases event with
  | truncate => exact absurd rfl hevent
  | insert r =>
    obtain rfl : item' = item.place (layout.token r) q none := by
      cases hrun
      rfl
    exact ⟨_, Beside.place _ _ _ _⟩
  | update old new =>
    obtain ⟨-, -, index, -, rfl⟩ := update_state hinc hrun
    exact ⟨_, (Beside.settledAt probe item _).trans (Beside.replaced _ _ _ _)⟩
  | delete old =>
    rw [operation, run_bind_eq_ok] at hrun
    obtain ⟨removed, item₁, hremove, hdone⟩ := hrun
    cases hdone
    obtain ⟨index, -, rfl⟩ := remove_state hremove
    exact ⟨_, (Beside.settledAt probe item _).trans (Beside.taken _ _ _)⟩

/-- The truncates of a fold. -/
structure SameTruncates (item item' : TableWork C V) : Prop where
  truncated : item'.truncated = item.truncated
  truncateMarks : item'.truncateMarks = item.truncateMarks
  truncates : item'.truncates = item.truncates

omit [DecidableEq C] [DecidableEq V] [ColumnValue V] [ToString C] in
theorem SameTruncates.trans {item'' : TableWork C V} (h : SameTruncates item item')
    (h' : SameTruncates item' item'') : SameTruncates item item'' :=
  ⟨h'.truncated.trans h.truncated, h'.truncateMarks.trans h.truncateMarks,
    h'.truncates.trans h.truncates⟩

/-- A row event leaves the truncates alone. -/
theorem foldEvent_row {B : Multiset (Row C V)} (h : layout.Simulates D item B)
    (hrender : layout.Renders event e) (hkind : e.kind ≠ .truncate)
    (hkey : ∀ old new, event = .update old new → layout.token new = layout.token old)
    (hrun : (foldEvent probe commitId (e, eventId)).run item = .ok () item') :
    SameTruncates item item' := by
  obtain ⟨item₁, item₂, hready, hop, hsettles, -⟩ :=
    foldEvent_operation h hrender hkind hkey hrun
  obtain ⟨k, hbeside⟩ := operation_beside hready.configured.incremental
    (hrender.ne_truncate hkind) hop
  exact ⟨hsettles.same.truncated.trans (hbeside.truncated.trans hready.same.truncated),
    hsettles.same.truncateMarks.trans (hbeside.truncateMarks.trans hready.same.truncateMarks),
    hsettles.same.truncates.trans (hbeside.truncates.trans hready.same.truncates)⟩

/-- A truncate appends its mark. -/
theorem foldEvent_mark (hkind : e.kind = .truncate)
    (hrun : (foldEvent probe commitId (e, eventId)).run item = .ok () item') :
    item'.truncated = true ∧ item'.truncates = item.truncates + 1 ∧
      item'.truncateMarks = item.truncateMarks ++ [(item.live.values.map concrete).sum] := by
  rw [foldEvent_truncate hkind hrun]
  unfold TableWork.recordSource
  split_ifs <;> exact ⟨rfl, rfl, rfl⟩

/-! ### A whole history -/

/-- A relation between the fold and the source that the records of a history preserve, and under
which the fold counts the rows of the source after a truncate. -/
structure Follows (layout : Layout C) (probe : Probe C V) (commitId : ℕ) (D : Multiset (Row C V))
    (R : TableWork C V → Multiset (Row C V) → Prop)
    (T : Multiset (Row C V) → SourceEvent C V → Multiset (Row C V) → Prop)
    (P : SourceEvent C V → PendingRecord C V × String → Prop) : Prop where
  simulates : ∀ item S, R item S → ∃ B, layout.Simulates D item B
  step : ∀ S event S', T S event S' → layout.Step S event S'
  renders : ∀ event record, P event record → layout.Renders event record.1
  fold : ∀ item S event S' record item', R item S → T S event S' → P event record →
    (foldEvent probe commitId record).run item = .ok () item' → R item' S'
  counts : ∀ item S, R item S → item.truncated = true →
    (item.live.values.map concrete).sum = S.card

variable {R : TableWork C V → Multiset (Row C V) → Prop}
  {T : Multiset (Row C V) → SourceEvent C V → Multiset (Row C V) → Prop}
  {P : SourceEvent C V → PendingRecord C V × String → Prop}

/-- One row event of a followed history. -/
theorem Follows.row {record : PendingRecord C V × String}
    (hF : layout.Follows probe commitId D R T P) (h : R item S) (hstep : T S event S')
    (hrender : P event record) (hevent : event ≠ .truncate)
    (hrun : (foldEvent probe commitId record).run item = .ok () item') :
    SameTruncates item item' ∧ record.1.kind ≠ .truncate := by
  have hrend := hF.renders _ _ hrender
  have hkind : record.1.kind ≠ .truncate := fun hkind => hevent (hrend.eq_truncate hkind)
  obtain ⟨B, hsim⟩ := hF.simulates _ _ h
  refine ⟨foldEvent_row hsim hrend hkind ?_ hrun, hkind⟩
  rintro old new rfl
  cases hF.step _ _ _ hstep with
  | update _ hkey => exact layout.token_eq_iff.2 hkey

/-- One truncate of a followed history. -/
theorem Follows.truncate {record : PendingRecord C V × String}
    (hF : layout.Follows probe commitId D R T P) (hrender : P .truncate record)
    (hrun : (foldEvent probe commitId record).run item = .ok () item') :
    item'.truncated = true ∧ item'.truncates = item.truncates + 1 ∧
      item'.truncateMarks = item.truncateMarks ++ [(item.live.values.map concrete).sum] := by
  refine foldEvent_mark ?_ hrun
  cases hF.renders _ _ hrender with
  | truncate hkind _ => exact hkind

/-- After a truncate, the marks are the counts of the source. -/
theorem Follows.marks_of_truncated (hF : layout.Follows probe commitId D R T P)
    (htrace : Trace T S events S') (hrender : List.Forall₂ P events records) (h : R item S)
    (htruncated : item.truncated = true)
    (hrun : (forM records (foldEvent probe commitId)).run item = .ok () item') :
    item'.truncated = true ∧
      item'.truncates = item.truncates + (truncateCounts S.card events).length ∧
      item'.truncateMarks = item.truncateMarks ++ truncateCounts S.card events := by
  induction htrace generalizing records item with
  | nil =>
    cases hrender
    cases hrun
    exact ⟨htruncated, rfl, (List.append_nil _).symm⟩
  | @cons S S₁ _ event events hstep _ ih =>
    cases hrender with
    | @cons _ record _ records hrend hrends =>
      rw [List.forM_cons, run_bind_eq_ok] at hrun
      obtain ⟨_, item₁, hfirst, hrest⟩ := hrun
      have h₁ := hF.fold _ _ _ _ _ _ h hstep hrend hfirst
      by_cases hevent : event = .truncate
      · subst hevent
        obtain ⟨htr, hcount, hmark⟩ := hF.truncate hrend hfirst
        obtain ⟨htr', hcount', hmark'⟩ := ih hrends h₁ htr hrest
        obtain rfl : S₁ = 0 := by
          cases hF.step _ _ _ hstep
          rfl
        refine ⟨htr', ?_, ?_⟩
        · rw [hcount', hcount, truncateCounts, List.length_cons, Multiset.card_zero]
          omega
        · rw [hmark', hmark, hF.counts _ _ h htruncated, truncateCounts, Multiset.card_zero,
            List.append_assoc]
          rfl
      · obtain ⟨hsame, -⟩ := hF.row h hstep hrend hevent hfirst
        obtain ⟨htr', hcount', hmark'⟩ := ih hrends h₁ (hsame.truncated.trans htruncated) hrest
        rw [truncateCounts_of_step (hF.step _ _ _ hstep) hevent]
        exact ⟨htr', by rw [hcount', hsame.truncates], by rw [hmark', hsame.truncateMarks]⟩

/-- **The marks of a history.** There is no truncate and no mark; or the first mark counts the
concrete entries before the first truncate, and the others are the counts of the source. -/
theorem Follows.marks (hF : layout.Follows probe commitId D R T P)
    (htrace : Trace T S events S') (hrender : List.Forall₂ P events records) (h : R item S)
    (htruncated : item.truncated = false) (hmarks : item.truncateMarks = [])
    (hrun : (forM records (foldEvent probe commitId)).run item = .ok () item') :
    (item'.truncated = false ∧ item'.truncateMarks = [] ∧ item'.truncates = item.truncates ∧
      truncateCounts S.card events = []) ∨
    ∃ item₁ S₁ records₁ later, Trace T S (beforeTruncate events) S₁ ∧
      List.Forall₂ P (beforeTruncate events) records₁ ∧
      (forM records₁ (foldEvent probe commitId)).run item = .ok () item₁ ∧
      item'.truncated = true ∧ item'.truncates = item.truncates + (later.length + 1) ∧
      item'.truncateMarks = (item₁.live.values.map concrete).sum :: later ∧
      truncateCounts S.card events = S₁.card :: later := by
  induction htrace generalizing records item with
  | nil =>
    cases hrender
    cases hrun
    exact Or.inl ⟨htruncated, hmarks, rfl, rfl⟩
  | @cons S S₁ _ event events hstep htrace ih =>
    cases hrender with
    | @cons _ record _ records hrend hrends =>
      rw [List.forM_cons, run_bind_eq_ok] at hrun
      obtain ⟨_, item₁, hfirst, hrest⟩ := hrun
      have h₁ := hF.fold _ _ _ _ _ _ h hstep hrend hfirst
      by_cases hevent : event = .truncate
      · subst hevent
        obtain ⟨htr, hcount, hmark⟩ := hF.truncate hrend hfirst
        obtain ⟨htr', hcount', hmark'⟩ := hF.marks_of_truncated htrace hrends h₁ htr hrest
        obtain rfl : S₁ = 0 := by
          cases hF.step _ _ _ hstep
          rfl
        refine Or.inr ⟨item, S, [], truncateCounts 0 events, .nil _, .nil, rfl, htr', ?_, ?_, rfl⟩
        · rw [hcount', hcount, Multiset.card_zero]
          omega
        · rw [hmark', hmark, hmarks, Multiset.card_zero]
          rfl
      · obtain ⟨hsame, -⟩ := hF.row h hstep hrend hevent hfirst
        have hbefore : beforeTruncate (event :: events) = event :: beforeTruncate events := by
          have hnot : event.isTruncate = false := by
            cases event with
            | truncate => exact absurd rfl hevent
            | insert r => rfl
            | update old new => rfl
            | delete old => rfl
          rw [beforeTruncate, List.takeWhile_cons_of_pos (by rw [hnot]; rfl)]
          rfl
        rw [truncateCounts_of_step (hF.step _ _ _ hstep) hevent, hbefore, ← hsame.truncates]
        rcases ih hrends h₁ (hsame.truncated.trans htruncated) (hsame.truncateMarks.trans hmarks)
          hrest with hnone | ⟨item₂, S₂, records₂, later, htrace₂, hrender₂, hrun₂, hrest₂⟩
        · exact Or.inl hnone
        · refine Or.inr ⟨item₂, S₂, record :: records₂, later, .cons hstep htrace₂,
            .cons hrend hrender₂, ?_, hrest₂⟩
          rw [List.forM_cons, run_bind_of_ok hfirst]
          exact hrun₂

end Layout

end CdcFlight
