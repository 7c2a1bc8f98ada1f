import CdcFlight.Destination.CommitGroup
import CdcFlight.Fold.KeyOnly

/-!
# A commit group on a table that is all key

A group on a table without a column outside the key is refused, or leaves the source's rows, along
the attributable histories and along no others: where the last row of a key is missed, it is deleted
at the destination while the source still holds it.

## Main results

* `CdcFlight.Layout.Wears.foldGroup_ok`, `CdcFlight.Layout.Wears.foldGroup_total`: the relation of
  the fold to the source over a whole group.
* `CdcFlight.Layout.commitTable_keyOnly`: the histories along which a group is refused or leaves the
  source's rows.
-/

namespace CdcFlight

open Lib

/-- A group is refused whole and changes nothing, or it is committed and leaves the rows `S'`. -/
def RefusedOrHolds {C V : Type} (t : Table C V) (S' : Multiset (Row C V))
    (outcome : Table C V × Option Refusal) : Prop :=
  (∃ refusal, outcome = (t, some refusal)) ∨ ∃ t', outcome = (t', none) ∧ contents t'.rows = S'

namespace Layout

variable {C V : Type} [DecidableEq C] [DecidableEq V] [ColumnValue V] [ToString C]
  {layout : Layout C} {D B S S' : Multiset (Row C V)} {item item' : TableWork C V}
  {probe : Probe C V} {W W' : Token V → Wearing} {commitId : ℕ}
  {events : List (SourceEvent C V)} {history : List (List (SourceEvent C V))}
  {records : List (PendingRecord C V × String)} {group : Group C V}

/-! ### Runs -/

theorem forall₂_and {α β : Type} {R : α → β → Prop} {P : β → Prop} {l : List α} {u : List β}
    (h : List.Forall₂ R l u) (hP : ∀ b ∈ u, P b) : List.Forall₂ (fun a b => R a b ∧ P b) l u := by
  have hflip : List.Forall₂ (fun b a => P b ∧ R a b) u l :=
    List.forall₂_and_left _ _ |>.2 ⟨hP, h.flip⟩
  exact hflip.flip.imp fun _ _ hr => hr.symm

omit [DecidableEq C] [ColumnValue V] [ToString C] in
theorem wear_cons (k : Token V) (w : Wearing) (event : SourceEvent C V) :
    layout.wear k w (event :: events) =
      (layout.wearStep k w event).bind fun w' => layout.wear k w' events := rfl

omit [DecidableEq C] [ColumnValue V] [ToString C] in
theorem wear_append (k : Token V) (w : Wearing) (later : List (SourceEvent C V)) :
    layout.wear k w (events ++ later) =
      (layout.wear k w events).bind fun w' => layout.wear k w' later :=
  List.foldlM_append

omit [DecidableEq C] [ColumnValue V] [ToString C] in
theorem wearStep_eq_wearAll {event : SourceEvent C V} {k : Token V}
    (h : (layout.wearStep k (W k) event).isSome) :
    layout.wearStep k (W k) event = some (wearAll layout W event k) := by
  obtain ⟨w', hw'⟩ := Option.isSome_iff_exists.1 h
  rw [wearAll, hw']
  rfl

/-- The records of a history that do not raise. -/
theorem Wears.foldEvents_ok (hall : layout.KeyOnly) (hA : layout.Answers probe D)
    (hD : layout.KeysDistinct D) (hDfits : ∀ s ∈ D, layout.Fits s)
    (htrace : Trace layout.Step S events S')
    (hrender : List.Forall₂ (fun event record => layout.Renders event record.1) events records)
    (h : layout.Wears D item B S W)
    (hrun : (forM records (foldEvent probe commitId)).run item = .ok () item') :
    ∃ B' W', (∀ k, layout.wear k (W k) events = some (W' k)) ∧
      layout.Wears D item' B' S' W' := by
  induction htrace generalizing records item B W with
  | nil =>
    cases hrender
    cases hrun
    exact ⟨B, W, fun _ => rfl, h⟩
  | @cons S T _ event events hstep _ ih =>
    cases hrender with
    | @cons _ record _ records hrend hrends =>
      rw [List.forM_cons, run_bind_eq_ok] at hrun
      obtain ⟨_, item₁, hfirst, hrest⟩ := hrun
      obtain ⟨hsome, B₁, h₁⟩ := h.foldEvent_ok hall hA hD hDfits hstep hrend hfirst
      obtain ⟨B', W', hwear, h'⟩ := ih hrends h₁ hrest
      refine ⟨B', W', fun k => ?_, h'⟩
      rw [wear_cons, wearStep_eq_wearAll (hsome k)]
      exact hwear k

/-- Records that do not raise, by the history. -/
theorem Wears.foldEvents_total (hall : layout.KeyOnly) (hA : layout.Answers probe D)
    (hD : layout.KeysDistinct D) (hDfits : ∀ s ∈ D, layout.Fits s)
    (htrace : Trace layout.Step S events S')
    (hrender : List.Forall₂ (fun event record => layout.Renders event record.1 ∧
      (record.1.kind ≠ .truncate → layout.Described record.1)) events records)
    (h : layout.Wears D item B S W) (hwear : ∀ k, (layout.wear k (W k) events).isSome) :
    ∃ item', (forM records (foldEvent probe commitId)).run item = .ok () item' := by
  induction htrace generalizing records item B W with
  | nil =>
    cases hrender
    exact ⟨item, rfl⟩
  | @cons S T _ event events hstep _ ih =>
    cases hrender with
    | @cons _ record _ records hrend hrends =>
      have hsteps (k : Token V) : (layout.wearStep k (W k) event).isSome := by
        have hk := hwear k
        rw [wear_cons] at hk
        exact Option.isSome_of_isSome_bind hk
      have hfirst : ∃ item₁, (foldEvent probe commitId record).run item = .ok () item₁ :=
        h.foldEvent_total hall hA hstep hrend.1 hrend.2 hsteps
      obtain ⟨item₁, hfirst⟩ := hfirst
      obtain ⟨-, B₁, h₁⟩ := h.foldEvent_ok hall hA hD hDfits hstep hrend.1 hfirst
      obtain ⟨item', hrest⟩ := ih hrends h₁ fun k => by
        have hk := hwear k
        rw [wear_cons, wearStep_eq_wearAll (hsteps k)] at hk
        exact hk
      exact ⟨item', by rw [List.forM_cons, run_bind_of_ok hfirst]; exact hrest⟩

omit [ColumnValue V] [ToString C] in
/-- No key is worn twice where the source's keys are distinct. -/
theorem Wears.multi_eq_empty (h : layout.Wears D item B S W) (hS : layout.KeysDistinct S) :
    item.multi = ∅ := by
  refine Finset.eq_empty_of_forall_notMem fun k hk => ?_
  have hlt := h.multi k hk
  cases hget : item.live.get? k with
  | none =>
    rw [TableWork.entriesAt, hget] at hlt
    exact absurd hlt (by simp [concrete])
  | some es =>
    obtain ⟨r, rfl⟩ := h.simulates.represents.isToken k es hget
    rw [entriesAt_of_get? hget, ← seenAt_of_get? hget, (h.worn r).placed_eq] at hlt
    have hle := hS.card_rowsAt_le (layout.token r)
    rw [h.rows r] at hle
    cases hw : W (layout.token r) <;> rw [hw] at hlt hle <;>
      simp only [Wearing.placed, Wearing.rows] at hlt hle <;> omega

/-- The records of whole transactions that do not raise. -/
theorem Wears.foldGroup_ok (hall : layout.KeyOnly) (hA : layout.Answers probe D)
    (hD : layout.KeysDistinct D) (hDfits : ∀ s ∈ D, layout.Fits s)
    (htrace : Trace layout.Transaction S history S')
    (hrender : List.Forall₂ (List.Forall₂ fun event record => layout.Renders event record.1)
      history group)
    (h : layout.Wears D item B S W)
    (hrun : (forM group (foldTransaction probe commitId)).run item = .ok () item') :
    ∃ B' W', (∀ k, layout.wear k (W k) history.flatten = some (W' k)) ∧
      layout.Wears D item' B' S' W' := by
  induction htrace generalizing group item B W with
  | nil =>
    cases hrender
    cases hrun
    exact ⟨B, W, fun _ => rfl, h⟩
  | @cons S T _ txn history htxn _ ih =>
    cases hrender with
    | @cons _ records _ group hrend hrends =>
      rw [List.forM_cons, run_bind_eq_ok] at hrun
      obtain ⟨_, item₁, hfirst, hrest⟩ := hrun
      obtain ⟨hfold, -⟩ := foldTransaction_eq_ok.1 hfirst
      obtain ⟨B₁, W₁, hwear₁, h₁⟩ := Wears.foldEvents_ok hall hA hD hDfits htxn.1 hrend h hfold
      obtain ⟨B', W', hwear, h'⟩ := ih hrends h₁ hrest
      refine ⟨B', W', fun k => ?_, h'⟩
      rw [List.flatten_cons, wear_append, hwear₁ k]
      exact hwear k

/-- Whole transactions whose records do not raise, by the history. -/
theorem Wears.foldGroup_total (hall : layout.KeyOnly) (hA : layout.Answers probe D)
    (hD : layout.KeysDistinct D) (hDfits : ∀ s ∈ D, layout.Fits s)
    (htrace : Trace layout.Transaction S history S')
    (hrender : List.Forall₂ (List.Forall₂ fun event record => layout.Renders event record.1 ∧
      (record.1.kind ≠ .truncate → layout.Described record.1)) history group)
    (h : layout.Wears D item B S W) (hwear : ∀ k, (layout.wear k (W k) history.flatten).isSome) :
    ∃ item', (forM group (foldTransaction probe commitId)).run item = .ok () item' := by
  induction htrace generalizing group item B W with
  | nil =>
    cases hrender
    exact ⟨item, rfl⟩
  | @cons S T _ txn history htxn _ ih =>
    cases hrender with
    | @cons _ records _ group hrend hrends =>
      have htxns (k : Token V) : (layout.wear k (W k) txn).isSome := by
        have hk := hwear k
        rw [List.flatten_cons, wear_append] at hk
        exact Option.isSome_of_isSome_bind hk
      have hfold : ∃ item₁, (forM records (foldEvent probe commitId)).run item = .ok () item₁ :=
        Wears.foldEvents_total hall hA hD hDfits htxn.1 hrend h htxns
      obtain ⟨item₁, hfold⟩ := hfold
      obtain ⟨B₁, W₁, hwear₁, h₁⟩ := Wears.foldEvents_ok hall hA hD hDfits htxn.1
        (hrend.imp fun _ _ hr => hr.1) h hfold
      have hfirst : (foldTransaction probe commitId records).run item = .ok () item₁ :=
        foldTransaction_eq_ok.2 ⟨hfold, h₁.multi_eq_empty htxn.2⟩
      obtain ⟨item', hrest⟩ := ih hrends h₁ fun k => by
        have hk := hwear k
        rw [List.flatten_cons, wear_append, hwear₁ k] at hk
        exact hk
      exact ⟨item', by rw [List.forM_cons, run_bind_of_ok hfirst]; exact hrest⟩

/-! ### The group -/

section Start

variable {t : Table C V} {e : PendingRecord C V} {applied : String → Bool}

omit [ColumnValue V] [ToString C] in
/-- The item of a table seen for the first time knows the rows of the destination. -/
theorem Mirrors.wears_create (h : layout.Mirrors t) (he : e.deleteMode ≠ some .soft) :
    layout.Wears (contents t.rows) (TableWork.create t.name e false false none) (contents t.rows)
      (contents t.rows) (layout.startWear (contents t.rows)) := by
  refine ⟨h.simulates_create he, h.fits, fun r => ?_, fun r => ?_, fun k hk => ?_⟩
  · have hseen : (TableWork.create t.name e false false none).seenAt (layout.token r) =
        [(Entry.start : Entry C V)] := rfl
    unfold startWear
    split_ifs with hzero
    · exact ⟨fun _ => Multiset.card_eq_zero.1 hzero, by rw [hseen]; rfl⟩
    · exact ⟨by rw [hseen]; exact List.mem_cons_self, mt Multiset.card_eq_zero.2 hzero,
        by rw [hseen]; rfl⟩
  · have hle := h.distinct.card_rowsAt_le (layout.token r)
    unfold startWear
    split_ifs with hzero
    · exact hzero
    · simp only [Wearing.rows]
      omega
  · exact absurd hk (Finset.notMem_empty k)

omit [ColumnValue V] [ToString C] in
/-- The rows the fold believes in: all but those it misses. -/
theorem Wears.card_rowsAt (h : layout.Wears D item B S W) (hD : layout.KeysDistinct D)
    (r : Row C V) :
    (layout.rowsAt B (layout.token r)).card = (W (layout.token r)).believed := by
  have hcard := h.simulates.represents.card_rowsAt hD (layout.token r)
  have hworn := h.worn r
  cases hw : W (layout.token r) with
  | own n =>
    rw [hw] at hworn
    obtain ⟨hstart, hne, hcount⟩ := hworn
    have hle := hD.card_rowsAt_le (layout.token r)
    have hpos := Multiset.card_pos.2 hne
    rw [if_pos hstart, hcount] at hcard
    rw [hcard, Wearing.believed]
    omega
  | missed n =>
    rw [hw] at hworn
    obtain ⟨hstart, -, hcount⟩ := hworn
    rw [if_neg hstart, hcount] at hcard
    exact hcard
  | known n =>
    rw [hw] at hworn
    obtain ⟨hstart, hcount⟩ := hworn
    rw [hcount] at hcard
    by_cases hs : Entry.start ∈ item.seenAt (layout.token r)
    · rw [if_pos hs, hstart hs, Multiset.card_zero] at hcard
      exact hcard
    · rw [if_neg hs] at hcard
      exact hcard

omit [ColumnValue V] [ToString C] in
/-- The fold believes in the source's rows exactly where it misses none. -/
theorem Wears.eq_iff (h : layout.Wears D item B S W) (hall : layout.KeyOnly)
    (hD : layout.KeysDistinct D) :
    B = S ↔ ∀ r n, W (layout.token r) ≠ .missed n := by
  constructor
  · rintro rfl r n hw
    have hcard := h.card_rowsAt hD r
    have hrows := h.rows r
    rw [hw] at hcard hrows
    rw [Wearing.believed] at hcard
    rw [Wearing.rows] at hrows
    omega
  · intro hnone
    refine hall.eq_of_card h.simulates.fits h.fits fun r _ => ?_
    rw [h.card_rowsAt hD r, h.rows r]
    cases hw : W (layout.token r) with
    | own n => rfl
    | missed n => exact absurd hw (hnone r n)
    | known n => rfl

omit [DecidableEq C] [ColumnValue V] [ToString C] in
/-- Nothing becomes of a key that no row can wear. -/
theorem wear_of_not_token {k : Token V} (hk : ∀ r, layout.token r ≠ k) :
    layout.wear k (layout.startWear D k) events = some (.known 0) := by
  have hstart : layout.startWear D k = .known 0 := by
    have hnone : layout.rowsAt D k = 0 :=
      Multiset.filter_eq_nil.2 fun r _ htoken => hk r htoken
    simp [startWear, hnone]
  rw [hstart]
  induction events with
  | nil => rfl
  | cons event events ih =>
    have hstep : layout.wearStep k (.known 0) event = some (.known 0) := by
      cases event <;> simp [wearStep, hk]
    rw [wear_cons, hstep]
    exact ih

omit [ColumnValue V] [ToString C] in
/-- The fold believes in at most the rows of the source. -/
theorem Wears.keysDistinct (h : layout.Wears D item B S W) (hD : layout.KeysDistinct D)
    (hS : layout.KeysDistinct S) : layout.KeysDistinct B := by
  refine keysDistinct_of_card_le fun r => ?_
  have hle := hS.card_rowsAt_le (layout.token r)
  rw [h.rows r] at hle
  rw [h.card_rowsAt hD r]
  cases hw : W (layout.token r) <;> rw [hw] at hle <;>
    simp only [Wearing.believed, Wearing.rows] at hle ⊢ <;> omega

omit [ColumnValue V] [ToString C] in
/-- The keys that the fold believes to be worn have different forms. -/
theorem Wears.keysApart (h : layout.Wears D item B S W) (hD : layout.KeysDistinct D)
    {canonical : List (Option V) → List (Option V)} (hS : layout.KeysApart canonical S) :
    layout.KeysApart canonical B := by
  refine hS.of_keys (h.keysDistinct hD hS.distinct) fun r hr => ?_
  have hle : (layout.rowsAt B (layout.token r)).card ≤ (layout.rowsAt S (layout.token r)).card := by
    rw [h.rows r, h.card_rowsAt hD r]
    cases W (layout.token r) <;> simp only [Wearing.believed, Wearing.rows] <;> omega
  have hmem : r ∈ layout.rowsAt B (layout.token r) := mem_rowsAt.2 ⟨hr, rfl⟩
  have hpos := Multiset.card_pos_iff_exists_mem.2 ⟨r, hmem⟩
  obtain ⟨s, hs⟩ := Multiset.card_pos_iff_exists_mem.1 (hpos.trans_le hle)
  obtain ⟨hs, htoken⟩ := mem_rowsAt.1 hs
  exact ⟨s, hs, layout.token_eq_iff.1 htoken⟩

omit [ColumnValue V] [ToString C] in
/-- A fold that misses a row has met a record. -/
theorem Wears.started (h : layout.Wears D item B S W) {r : Row C V} {n : ℕ}
    (hw : W (layout.token r) = .missed n) : Started item := by
  by_contra hnot
  obtain ⟨hid, htruncated⟩ := not_or.1 hnot
  have hworn := h.worn r
  rw [hw] at hworn
  -- a fold that has met no record knows the destination's own row
  refine hworn.1 ?_
  have hnone : item.live.get? (layout.token r) = none := by
    rw [Dict.get?_eq_none_iff, Dict.keys, h.simulates.unidentified (by simpa using hid)]
    exact List.not_mem_nil
  rw [TableWork.seenAt, hnone, Option.getD_none, if_neg htruncated]
  exact List.mem_cons_self

/-- A group that is written leaves the source's rows exactly where no row is missed. -/
theorem MirrorsByText.applyTable_keyOnly (h : layout.MirrorsByText t) {engine : LimitOne C V}
    {supportsPrimaryKey : Bool} (hall : layout.KeyOnly)
    (htrace : Trace layout.Transaction (contents t.rows) history S')
    (hrender : List.Forall₂ (List.Forall₂ fun event record => layout.Renders event record.1)
      history group) {t' : Table C V}
    (hrun : applyTable engine supportsPrimaryKey applied commitId t group = .ok t') :
    ∃ W' : Token V → Wearing,
      (∀ k, layout.wear k (layout.startWear (contents t.rows) k) history.flatten =
        some (W' k)) ∧
      (contents t'.rows = S' ↔ ∀ r n, W' (layout.token r) ≠ .missed n) := by
  have hflat := List.rel_flatten hrender
  unfold applyTable at hrun
  cases hgroup : group.flatten with
  | nil =>
    simp only [hgroup] at hrun hflat
    obtain rfl := Except.ok.inj hrun
    have hsteps := (htrace.mono fun _ _ _ h => h.1).flatten
    rw [List.forall₂_nil_right_iff.1 hflat] at hsteps ⊢
    cases hsteps
    refine ⟨layout.startWear (contents t.rows), fun k => rfl, fun _ r n => ?_, fun _ => rfl⟩
    unfold startWear
    split_ifs <;> simp
  | cons first rest =>
    simp only [hgroup] at hrun hflat
    obtain ⟨event, _, hfirst, -⟩ := List.forall₂_cons_right_iff.1 hflat
    have hinit := h.wears_create hfirst.deleteMode_ne
    split at hrun
    · cases hrun
    · rename_i hfold
      obtain ⟨w, hw, hrun⟩ := except_bind_eq_ok.1 hrun
      obtain rfl := Except.ok.inj hrun
      obtain ⟨B, W', hwear, h'⟩ := Wears.foldGroup_ok hall (h.answers applied) h.distinct h.fits
        htrace hrender hinit hfold
      have hS' : layout.KeysDistinct S' :=
        htrace.invariant (P := layout.KeysDistinct) (fun _ _ _ _ htxn => htxn.2) h.distinct
      obtain ⟨hcontents, -⟩ := write_contents h.texts h'.simulates (h'.keysDistinct h.distinct hS')
        h.absent hw
      refine ⟨W', hwear, ?_⟩
      rw [hcontents]
      exact h'.eq_iff hall h.distinct

/-- A group of described records that meets a row it misses is written. -/
theorem MirrorsByText.applyTable_keyOnly_total (h : layout.MirrorsByText t) (engine : LimitOne C V)
    (supportsPrimaryKey : Bool) (commitId : ℕ)
    (hkeys : t.present = true → t.keyColumns = layout.keyColumns) (hall : layout.KeyOnly)
    (htrace : Trace layout.Transaction (contents t.rows) history S')
    (hrender : List.Forall₂ (List.Forall₂ fun event record => layout.Renders event record.1 ∧
      (record.1.kind ≠ .truncate → layout.Described record.1)) history group)
    (hwear : ∀ k, (layout.wear k (layout.startWear (contents t.rows) k) history.flatten).isSome)
    {r : Row C V} {n : ℕ}
    (hmissed : layout.wear (layout.token r)
      (layout.startWear (contents t.rows) (layout.token r)) history.flatten = some (.missed n)) :
    ∃ t', applyTable engine supportsPrimaryKey applied commitId t group = .ok t' := by
  have hflat := List.rel_flatten hrender
  unfold applyTable
  cases hgroup : group.flatten with
  | nil => exact ⟨t, rfl⟩
  | cons first rest =>
    rw [hgroup] at hflat
    obtain ⟨event, _, ⟨hfirst, -⟩, -⟩ := List.forall₂_cons_right_iff.1 hflat
    have hinit := h.wears_create hfirst.deleteMode_ne
    have hfold : ∃ item', (forM group (foldTransaction (t.probe false applied) commitId)).run
        (TableWork.create t.name first.1 false false none) = .ok () item' :=
      Wears.foldGroup_total hall (h.answers applied) h.distinct h.fits htrace hrender hinit hwear
    obtain ⟨item', hfold⟩ := hfold
    obtain ⟨B, W', hwear', h'⟩ := Wears.foldGroup_ok hall (h.answers applied) h.distinct h.fits
      htrace (hrender.imp fun _ _ hr => hr.imp fun _ _ hr => hr.1) hinit hfold
    have hS' : layout.KeysDistinct S' :=
      htrace.invariant (P := layout.KeysDistinct) (fun _ _ _ _ htxn => htxn.2) h.distinct
    have hstarted : Started item' :=
      h'.started (Option.some.inj ((hwear' _).symm.trans hmissed))
    obtain ⟨w, hw⟩ := write_total engine supportsPrimaryKey h hkeys h'.simulates hstarted
      (h'.keysDistinct h.distinct hS')
    refine ⟨w.table, ?_⟩
    simp only [hfold, hw]
    rfl

/-- A group on a table that is all key, folded by the texts, stands for rows whose keys have
different forms, and has met a record where it misses a row. -/
theorem Mirrors.foldsTo_keyOnly (h : layout.Mirrors t) (hall : layout.KeyOnly) (commitId : ℕ)
    (hleft : layout.KeysApart t.canonicalKey S')
    (htrace : Trace layout.Transaction (contents t.rows) history S')
    (hrender : List.Forall₂ (List.Forall₂ fun event record => layout.Renders event record.1)
      history group) :
    FoldsTo t applied commitId group fun item => layout.StandsApart t item ∧
      ∀ r n, layout.wear (layout.token r) (layout.startWear (contents t.rows) (layout.token r))
        history.flatten = some (.missed n) → Started item := by
  intro first hfirst item hrun
  obtain ⟨event, -, hrend⟩ :=
    forall₂_mem_right (List.rel_flatten hrender) (List.mem_of_mem_head? hfirst)
  have hinit := h.wears_create hrend.deleteMode_ne
  obtain ⟨B, W', hwear, h'⟩ := Wears.foldGroup_ok hall (h.byText.answers applied) h.distinct
    h.fits htrace hrender hinit hrun
  exact ⟨⟨B, h'.simulates, h'.keysApart h.distinct hleft⟩, fun r n hmissed =>
    h'.started (Option.some.inj ((hwear _).symm.trans hmissed))⟩

/-- **A group on a table that is all key** is refused whole, or leaves the source's rows, along
every attributable history, and for described records along no other. Several rows may wear one key
inside a transaction. At the destination and at the end of the group the keys have different forms,
as the constraints demand, and the named keys have one text. -/
theorem commitTable_keyOnly (layout : Layout C) (engine : LimitOne C V) (supportsPrimaryKey : Bool)
    (applied : String → Bool) (commitId : ℕ) (t : Table C V) (h : layout.Mirrors t)
    (hkeys : t.present = true → t.keyColumns = layout.keyColumns) (hall : layout.KeyOnly)
    (hheld : layout.KeysApart t.canonicalKey (contents t.rows))
    (hleft : layout.KeysApart t.canonicalKey S')
    (hone : layout.OneText t.canonicalKey (contents t.rows) history.flatten)
    (htrace : Trace layout.Transaction (contents t.rows) history S')
    (hrender : List.Forall₂ (List.Forall₂ fun event record => layout.Renders event record.1)
      history group) :
    (layout.Attributable (contents t.rows) history.flatten →
      RefusedOrHolds t S' (commitTable engine supportsPrimaryKey applied commitId t group)) ∧
    ((∀ records ∈ group, ∀ record ∈ records,
        record.1.kind ≠ .truncate → layout.Described record.1) →
      RefusedOrHolds t S' (commitTable engine supportsPrimaryKey applied commitId t group) →
      layout.Attributable (contents t.rows) history.flatten) := by
  have hfold : FoldsTo t applied commitId group fun item => layout.StandsApart t item ∧
      ∀ r n, layout.wear (layout.token r) (layout.startWear (contents t.rows) (layout.token r))
        history.flatten = some (.missed n) → Started item :=
    h.foldsTo_keyOnly hall commitId hleft htrace hrender
  have htext {t' : Table C V}
      (hrun : applyTable engine supportsPrimaryKey applied commitId t group = .ok t') :
      ∃ W' : Token V → Wearing,
        (∀ k, layout.wear k (layout.startWear (contents t.rows) k) history.flatten =
          some (W' k)) ∧
        (contents t'.rows = S' ↔ ∀ r n, W' (layout.token r) ≠ .missed n) := by
    have hrun' := hone.applyTable_byText hrender hheld h.absent
      (fun first hfirst item hitem => (hfold first hfirst item hitem).1) hrun
    obtain ⟨W', hwear, hiff⟩ := h.byText.applyTable_keyOnly hall htrace hrender hrun'
    exact ⟨W', hwear, hiff⟩
  constructor
  · intro hattributable
    unfold commitTable
    cases hrun : applyTable engine supportsPrimaryKey applied commitId t group with
    | error refusal => exact Or.inl ⟨refusal, rfl⟩
    | ok t' =>
      obtain ⟨W', hwear, hiff⟩ := htext hrun
      refine Or.inr ⟨t', rfl, hiff.2 fun r n hw => ?_⟩
      rcases hattributable with ⟨k, hnone⟩ | hnever
      · rw [hwear k] at hnone
        cases hnone
      · exact hnever (layout.token r) n (by rw [hwear, hw])
  · intro hdescribed hholds
    by_contra hnot
    obtain ⟨hsome, hmissed⟩ := not_or.1 hnot
    simp only [not_exists] at hsome
    simp only [not_forall, not_not] at hmissed
    obtain ⟨k, n, hmissed⟩ := hmissed
    have hwear (k : Token V) :
        (layout.wear k (layout.startWear (contents t.rows) k) history.flatten).isSome :=
      Option.ne_none_iff_isSome.1 (hsome k)
    obtain ⟨r, rfl⟩ : ∃ r, layout.token r = k := by
      by_contra hk
      rw [wear_of_not_token (not_exists.1 hk)] at hmissed
      cases hmissed
    have hrender' : List.Forall₂ (List.Forall₂ fun event record =>
        layout.Renders event record.1 ∧
          (record.1.kind ≠ .truncate → layout.Described record.1)) history group :=
      (forall₂_and hrender hdescribed).imp fun _ _ hr => forall₂_and hr.1 hr.2
    obtain ⟨_, hrun'⟩ := h.byText.applyTable_keyOnly_total engine supportsPrimaryKey commitId hkeys
      hall htrace hrender' hwear hmissed
    obtain ⟨t', hrun, -⟩ := hone.applyTable_of_byText hrender hheld h.absent hkeys
      (fun first hfirst item hitem =>
        have hitem := hfold first hfirst item hitem
        ⟨hitem.2 r n hmissed, hitem.1⟩) hrun'
    obtain ⟨W', hwear', hiff⟩ := htext hrun
    rw [commitTable, hrun] at hholds
    rcases hholds with ⟨refusal, hrefused⟩ | ⟨_, heq, hcontents⟩
    · cases hrefused
    · obtain rfl := (Prod.mk.inj heq).1
      refine hiff.1 hcontents r n ?_
      exact Option.some.inj ((hwear' _).symm.trans hmissed)

end Start

end Layout

/-! ### A table that is all key -/

namespace Places

open Accounts (Column firstRow)

theorem id_ne_nil : [Column.id] ≠ [] := List.cons_ne_nil _ _

theorem nodup_id : [Column.id].Nodup := List.nodup_singleton _

/-- The places of a queue: one column, which is the key. -/
def layout : Layout Column where
  columns := [.id]
  keyColumns := [.id]
  catalog c := { fingerprint := toString c }
  keyColumns_ne_nil := id_ne_nil
  keyColumns_subset := List.Subset.refl _

/-- A place. -/
def row (id : String) : Row Column String
  | .id => some id
  | _ => none

/-- Records under `REPLICA IDENTITY FULL`. -/
def sends : layout.Sends where
  key_nodup := nodup_id
  columns_nodup := nodup_id
  before := [.id]
  before_nodup := nodup_id
  before_subset := List.Subset.refl _
  key_subset := List.Subset.refl _
  after := [.id]
  after_nodup := nodup_id
  after_subset := List.Subset.refl _

/-- The destination table, with two places. -/
def table : Table Column String where
  name := "places"
  columns := [.id]
  keyColumns := [.id]
  rows := [⟨row "1", { eventId := some "0" }⟩, ⟨row "2", { eventId := some "0" }⟩]

/-- Every place moves up by one, the first place first. -/
def shift : List (List (SourceEvent Column String)) :=
  [[.delete (row "1"), .insert (row "2"), .delete (row "2"), .insert (row "3")]]

/-- The records of the move. -/
def group : Group Column String :=
  shift.map fun txn => txn.map fun event => (sends.record event, "1")

theorem fits (id : String) : layout.Fits (row id) := by
  intro c hc
  cases c with
  | id => exact absurd (by decide) hc
  | note => rfl
  | body => rfl

theorem mirrors_table : layout.Mirrors table where
  columns _ := by decide
  absent h := by cases h
  distinct := by
    rw [Layout.KeysDistinct, show (contents table.rows).map layout.key =
      {[some "1"], [some "2"]} from rfl]
    decide
  fits r hr := by
    obtain ⟨d, hd, rfl⟩ := Layout.mem_contents.1 hr
    rcases List.mem_cons.1 hd with rfl | hd
    · exact fits "1"
    · obtain rfl := List.mem_singleton.1 hd
      exact fits "2"

theorem keyOnly : layout.KeyOnly := by
  intro c hc
  exact hc

/-- The source holds the places 2 and 3. -/
theorem trace_shift : Trace layout.Transaction (contents table.rows) shift
    (row "3" ::ₘ {row "2"}) := by
  have hcontents : contents table.rows = row "1" ::ₘ {row "2"} := rfl
  have hdistinct : layout.KeysDistinct (row "3" ::ₘ {row "2"}) := by
    rw [Layout.KeysDistinct, show (row "3" ::ₘ {row "2"}).map layout.key =
      {[some "3"], [some "2"]} from rfl]
    decide
  rw [hcontents]
  refine .cons ⟨?_, hdistinct⟩ (.nil _)
  exact .cons .delete (.cons (.insert (fits "2")) (.cons .delete (.cons (.insert (fits "3"))
    (.nil _))))

theorem renders_group : List.Forall₂ (List.Forall₂ fun event record =>
    layout.Renders event record.1) shift group := by
  have hfit : ∀ txn ∈ shift, ∀ event ∈ txn, sends.Fit event := by decide
  unfold group
  rw [List.forall₂_map_right_iff, List.forall₂_same]
  intro txn htxn
  rw [List.forall₂_map_right_iff, List.forall₂_same]
  exact fun event hevent => sends.renders_record (hfit txn htxn event hevent)

theorem described_group : ∀ records ∈ group, ∀ record ∈ records,
    record.1.kind ≠ .truncate → layout.Described record.1 := by
  intro records hrecords record hrecord
  obtain ⟨txn, -, rfl⟩ := List.mem_map.1 hrecords
  obtain ⟨event, -, rfl⟩ := List.mem_map.1 hrecord
  exact sends.described_record (by decide) event

/-- The move is written, and the place 2 is missing. -/
theorem commitTable_shift :
    Trace layout.Transaction (contents table.rows) shift (row "3" ::ₘ {row "2"}) ∧
      List.Forall₂ (List.Forall₂ fun event record => layout.Renders event record.1) shift group ∧
      ¬ RefusedOrHolds table (row "3" ::ₘ {row "2"})
        (commitTable firstRow true (fun _ => false) 7 table group) := by
  refine ⟨trace_shift, renders_group, ?_⟩
  have hnone : (commitTable firstRow true (fun _ => false) 7 table group).2.isNone = true := by
    decide +kernel
  have hlength : (commitTable firstRow true (fun _ => false) 7 table group).1.rows.length = 1 := by
    decide +kernel
  rintro (⟨refusal, hrefused⟩ | ⟨t', heq, hcontents⟩)
  · rw [hrefused] at hnone
    cases hnone
  · rw [heq] at hlength
    have hcard := congrArg Multiset.card hcontents
    rw [contents, Multiset.coe_card, List.length_map, hlength, Multiset.card_cons] at hcard
    cases hcard

theorem commitTable_shift_iff :
    layout.Attributable (contents table.rows) shift.flatten ↔
      RefusedOrHolds table (row "3" ::ₘ {row "2"})
        (commitTable firstRow true (fun _ => false) 7 table group) := by
  have hleft : layout.KeysDistinct (row "3" ::ₘ {row "2"}) :=
    trace_shift.invariant (P := layout.KeysDistinct) (fun _ _ _ _ htxn => htxn.2)
      mirrors_table.distinct
  obtain ⟨henough, hneeded⟩ := Layout.commitTable_keyOnly layout firstRow true (fun _ => false) 7
    table mirrors_table (fun _ => rfl) keyOnly mirrors_table.distinct hleft
    (fun _ _ _ _ _ _ heq => heq) trace_shift renders_group
  exact ⟨henough, hneeded described_group⟩

end Places

end CdcFlight
