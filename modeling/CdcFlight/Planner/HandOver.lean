import CdcFlight.Destination.Runs
import CdcFlight.Planner.Units

/-!
# The snapshot/stream hand-over

A table is imaged at a consistent point: the image holds exactly the source transactions that
committed below it. The stream then delivers every transaction, those of the image included, and
the watermark fence has to leave out of the table the transactions the image holds, and no others.

The fence compares the last position of the unit, which `_feed_end` computes as the maximum of the
commit position and the positions of the events still in memory. Events that were staged do not
count. So the fence is right about a transaction exactly when no event in memory lies at or above
the mark while the commit lies below it.

## Main definitions

* `CdcFlight.Delivery`: a source transaction at its END, with what was staged of it.
* `CdcFlight.HandsOver`: the purpose of the fence, for one imaged table.

## Main results

* `CdcFlight.handsOver_iff`: exactly when the fence serves its purpose.
* `CdcFlight.fence_of_logOrder`: the fence is right where every event lies at or below its commit.
-/

namespace CdcFlight

open Lib

variable {C V : Type}

/-- A source transaction at its END: the open transaction with the events still in memory, the END
record, which carries the commit position, and the staged events as the spill store returns
them. -/
structure Delivery (C V : Type) where
  txn : OpenTxn C V
  finish : PendingRecord C V
  commitLsn : ℕ
  /-- Position 0 is no position of the log. -/
  commitLsn_pos : 0 < commitLsn
  finish_lsn : finish.lsn = some commitLsn
  staged : List (StagedEvent C V)
  staged_nil : txn.spillUnitSeq = none → staged = []

namespace Delivery

variable (d : Delivery C V)

/-- The unit `_feed_end` emits. -/
def unit : CompleteUnit C V := d.txn.unit d.finish

/-- The events of the transaction in source order. -/
def arrivals : List (Collected C V) := d.unit.sourceOrder fun _ => d.staged

/-- The records of a relation among collected events, under the identity each was staged with or
is given. -/
def recordsAmong (identify : PendingRecord C V → String) (relation : String)
    (collected : List (Collected C V)) : List (PendingRecord C V × String) :=
  (collected.filter fun a => a.event.kind ≠ .message ∧ a.event.relation = some relation).map
    fun a => (a.event, a.eventId.getD (identify a.event))

/-- Every record of a relation in the transaction. -/
def records (identify : PendingRecord C V → String) (relation : String) :
    List (PendingRecord C V × String) :=
  recordsAmong identify relation d.arrivals

/-- The records of a relation that `add_unit` hands to its fold. -/
def handed (identify : PendingRecord C V → String) (watermarks : Dict String ℕ)
    (relation : String) : List (PendingRecord C V × String) :=
  recordsAmong identify relation (addUnit watermarks (fun _ => d.staged) d.unit).collected

/-- The operations of a transaction, without those the image holds. -/
def after (mark : ℕ) (operations : Delivery C V → List (SourceEvent C V)) :
    List (SourceEvent C V) :=
  if d.commitLsn < mark then [] else operations d

end Delivery

/-- **The purpose of the fence**, for a relation imaged at `mark` and the transactions that
follow. -/
structure HandsOver [DecidableEq C] [DecidableEq V] [ColumnValue V] [ToString C]
    (identify : PendingRecord C V → String) (watermarks : Dict String ℕ) (relation : String)
    (mark : ℕ) (txns : List (Delivery C V)) : Prop where
  /-- The relation's records are dropped when their transaction committed below the mark, and
  handed on otherwise. -/
  fence : ∀ d ∈ txns, d.handed identify watermarks relation =
    if d.commitLsn < mark then [] else d.records identify relation
  /-- Another relation's records fare the same whatever the mark of this one. -/
  others : ∀ d ∈ txns, ∀ other ≠ relation, ∀ mark', d.handed identify
    (watermarks.set relation mark') other = d.handed identify watermarks other
  /-- From the image, commit groups over the transactions end with the source's rows, where no key
  is ever worn twice and every group names keys in the texts it finds. -/
  table : ∀ (layout : Layout C) (engine : LimitOne C V) (supportsPrimaryKey : Bool)
    (groups : List (ℕ × (String → Bool) × List (Delivery C V)))
    (operations : Delivery C V → List (SourceEvent C V)) (image : Table C V)
    (S' : Multiset (Row C V)),
    groups.flatMap (·.2.2) = txns → layout.Mirrors image →
    (image.present = true → image.keyColumns = layout.keyColumns) →
    Trace (Trace layout.StrictStep) (contents image.rows)
      ((txns.filter fun d => mark ≤ d.commitLsn).map operations) S' →
    layout.RunInTexts image.canonicalKey (contents image.rows)
      (groups.map fun g => g.2.2.map fun d => d.after mark operations) →
    (∀ d ∈ txns, List.Forall₂ (fun event record => layout.Renders event record.1 ∧
      (record.1.kind ≠ .truncate → layout.Described record.1))
        (operations d) (d.records identify relation)) →
    ∃ t', commitAll engine supportsPrimaryKey image (groups.map fun g =>
        ⟨g.1, g.2.1, g.2.2.map fun d => d.handed identify watermarks relation⟩) = (t', none) ∧
      contents t'.rows = S'

/-! ### The fence position -/

namespace Delivery

variable (d : Delivery C V) (identify : PendingRecord C V → String)
  (watermarks : Dict String ℕ) {relation : String} {mark : ℕ}

private theorem foldl_max_lt {bound : ℕ} (a : ℕ) (l : List ℕ) :
    l.foldl max a < bound ↔ a < bound ∧ ∀ x ∈ l, x < bound := by
  induction l generalizing a with
  | nil => simp
  | cons x l ih =>
    rw [List.foldl_cons, ih, max_lt_iff, List.forall_mem_cons, and_assoc]

theorem commitLsn_unit : d.txn.commitLsn d.finish = d.commitLsn := by
  have hpos := d.commitLsn_pos
  have horZero : orZero d.finish.lsn = d.commitLsn := by
    rw [d.finish_lsn]
    rfl
  rw [OpenTxn.commitLsn, horZero, if_pos (by omega)]

/-- The position the fence compares lies below a bound when the commit and every event in memory
do. -/
theorem fenceLsn_lt {bound : ℕ} : orZero d.unit.fenceLsn < bound ↔
    d.commitLsn < bound ∧ ∀ e ∈ d.txn.events, orZero e.lsn < bound := by
  have hfence : orZero d.unit.fenceLsn = d.unit.lastLsn := rfl
  have hlast : d.unit.lastLsn =
      (d.txn.events.map fun e => orZero e.lsn).foldl max d.commitLsn := by
    rw [← d.commitLsn_unit]
    rfl
  rw [hfence, hlast, foldl_max_lt, List.forall_mem_map]

theorem fenceLsn_pos : 0 < orZero d.unit.fenceLsn := by
  by_contra h
  have hlt : orZero d.unit.fenceLsn < 1 := by omega
  have hpos := d.commitLsn_pos
  have := (d.fenceLsn_lt.1 hlt).1
  omega

/-! ### What is handed on -/

theorem handed_eq : d.handed identify watermarks relation =
    recordsAmong identify relation (d.arrivals.filter fun a =>
      !belowWatermark a.event d.unit.fenceLsn watermarks) := by
  have hkind : d.unit.kind = .txn := rfl
  rw [handed, collected_addUnit _ _ (by simp [hkind]) rfl]
  rfl

/-- The records of a marked relation are all handed on, or none of them. -/
theorem handed_of_mark (hmark : watermarks.get? relation = some mark) :
    d.handed identify watermarks relation =
      if orZero d.unit.fenceLsn < mark then [] else d.records identify relation := by
  have hpos := d.fenceLsn_pos
  rw [handed_eq, records, recordsAmong, recordsAmong, List.filter_filter]
  split_ifs with hlt
  · rw [List.map_eq_nil_iff, List.filter_eq_nil_iff]
    intro a ha hkept
    simp only [decide_eq_true_eq, Bool.and_eq_true, Bool.not_eq_true'] at hkept
    obtain ⟨⟨-, hrelation⟩, hpass⟩ := hkept
    have hbelow := (belowWatermark_of_mark hrelation hmark).2 ⟨hpos, hlt⟩
    rw [hbelow] at hpass
    cases hpass
  · congr 1
    refine List.filter_congr fun a ha => ?_
    by_cases hrelation : a.event.relation = some relation
    · have hpass : belowWatermark a.event d.unit.fenceLsn watermarks = false := by
        by_contra hbelow
        exact hlt ((belowWatermark_of_mark hrelation hmark).1 (by simpa using hbelow)).2
      simp [hpass]
    · simp [hrelation]

/-- The mark of a relation plays no part in what is handed on of another. -/
theorem handed_set {other : String} (hne : other ≠ relation) (mark' : ℕ) :
    d.handed identify (watermarks.set relation mark') other =
      d.handed identify watermarks other := by
  rw [handed_eq, handed_eq, recordsAmong, recordsAmong, List.filter_filter, List.filter_filter]
  congr 1
  refine List.filter_congr fun a ha => ?_
  by_cases hrelation : a.event.relation = some other
  · have hsame : belowWatermark a.event d.unit.fenceLsn (watermarks.set relation mark') =
        belowWatermark a.event d.unit.fenceLsn watermarks := by
      refine belowWatermark_congr _ fun relation' h => ?_
      obtain rfl := Option.some.inj (hrelation.symm.trans h)
      exact Dict.get?_set_of_ne _ _ hne
    rw [hsame]
  · simp [hrelation]

end Delivery

/-! ### The hand-over -/

section HandOver

variable [DecidableEq C] [DecidableEq V] [ColumnValue V] [ToString C]
  {identify : PendingRecord C V → String} {watermarks : Dict String ℕ} {relation : String}
  {mark : ℕ} {txns : List (Delivery C V)}

omit [DecidableEq V] [ColumnValue V] [ToString C] [DecidableEq C] in
/-- Transactions without operations take no part in a source history. -/
theorem trace_after {layout : Layout C}
    {operations : Delivery C V → List (SourceEvent C V)} {S S' : Multiset (Row C V)}
    (h : Trace (Trace layout.StrictStep) S
      ((txns.filter fun d => mark ≤ d.commitLsn).map operations) S') :
    Trace (Trace layout.StrictStep) S (txns.map fun d => d.after mark operations) S' := by
  induction txns generalizing S with
  | nil => exact h
  | cons d txns ih =>
    by_cases hlt : d.commitLsn < mark
    · rw [List.filter_cons_of_neg (by simpa using hlt)] at h
      rw [List.map_cons, Delivery.after, if_pos hlt]
      exact .cons (.nil S) (ih h)
    · rw [List.filter_cons_of_pos (by simpa using hlt), List.map_cons] at h
      rw [List.map_cons, Delivery.after, if_neg hlt]
      cases h with
      | cons hd htxns => exact .cons hd (ih htxns)

/-- Where the fence drops what the image holds, the run of groups ends with the source's rows. -/
theorem table_of_fence
    (hfence : ∀ d ∈ txns, d.handed identify watermarks relation =
      if d.commitLsn < mark then [] else d.records identify relation)
    (layout : Layout C) (engine : LimitOne C V) (supportsPrimaryKey : Bool)
    {groups : List (ℕ × (String → Bool) × List (Delivery C V))}
    {operations : Delivery C V → List (SourceEvent C V)} {image : Table C V}
    {S' : Multiset (Row C V)} (hgroups : groups.flatMap (·.2.2) = txns)
    (himage : layout.Mirrors image)
    (hkeys : image.present = true → image.keyColumns = layout.keyColumns)
    (htrace : Trace (Trace layout.StrictStep) (contents image.rows)
      ((txns.filter fun d => mark ≤ d.commitLsn).map operations) S')
    (htexts : layout.RunInTexts image.canonicalKey (contents image.rows)
      (groups.map fun g => g.2.2.map fun d => d.after mark operations))
    (hrender : ∀ d ∈ txns, List.Forall₂ (fun event record => layout.Renders event record.1 ∧
      (record.1.kind ≠ .truncate → layout.Described record.1))
        (operations d) (d.records identify relation)) :
    ∃ t', commitAll engine supportsPrimaryKey image (groups.map fun g =>
        ⟨g.1, g.2.1, g.2.2.map fun d => d.handed identify watermarks relation⟩) = (t', none) ∧
      contents t'.rows = S' := by
  have hmem (g : ℕ × (String → Bool) × List (Delivery C V)) (hg : g ∈ groups)
      (d : Delivery C V) (hd : d ∈ g.2.2) : d ∈ txns :=
    hgroups ▸ List.mem_flatMap.2 ⟨g, hg, hd⟩
  have hhistory : (groups.map fun g => g.2.2.map fun d => d.after mark operations).flatten =
      txns.map fun d => d.after mark operations := by
    rw [← hgroups, List.map_flatMap, List.flatMap_def]
  have hafter := trace_after htrace
  rw [← hhistory] at hafter
  refine himage.commitAll_settled engine supportsPrimaryKey hkeys htexts hafter ?_
  rw [List.forall₂_map_left_iff, List.forall₂_map_right_iff, List.forall₂_same]
  intro g hg
  rw [List.forall₂_map_left_iff, List.forall₂_map_right_iff, List.forall₂_same]
  intro d hd
  rw [hfence d (hmem g hg d hd), Delivery.after]
  split_ifs
  · exact .nil
  · exact hrender d (hmem g hg d hd)

omit [DecidableEq C] [DecidableEq V] [ColumnValue V] [ToString C] in
private theorem fence_of_memory (hmark : watermarks.get? relation = some mark)
    (h : ∀ d ∈ txns, d.commitLsn < mark → d.records identify relation ≠ [] →
      ∀ e ∈ d.txn.events, orZero e.lsn < mark) :
    ∀ d ∈ txns, d.handed identify watermarks relation =
      if d.commitLsn < mark then [] else d.records identify relation := by
  intro d hd
  rw [d.handed_of_mark identify watermarks hmark]
  by_cases hnil : d.records identify relation = []
  · simp [hnil]
  have hsame : orZero d.unit.fenceLsn < mark ↔ d.commitLsn < mark := by
    rw [d.fenceLsn_lt]
    exact ⟨fun hlt => hlt.1, fun hcommit => ⟨hcommit, h d hd hcommit hnil⟩⟩
  simp only [hsame]

omit [DecidableEq C] [DecidableEq V] [ColumnValue V] [ToString C] in
/-- In a log where every event lies at or below its commit the fence drops exactly what the image
holds, whatever part of a transaction was staged. -/
theorem fence_of_logOrder (identify : PendingRecord C V → String)
    (hmark : watermarks.get? relation = some mark)
    (horder : ∀ d ∈ txns, ∀ e ∈ d.txn.events, orZero e.lsn ≤ d.commitLsn) :
    ∀ d ∈ txns, d.handed identify watermarks relation =
      if d.commitLsn < mark then [] else d.records identify relation := by
  refine fence_of_memory hmark fun d hd hcommit _ e he => ?_
  have := horder d hd e he
  omega

/-- **When the fence serves its purpose**: exactly when no transaction of the relation that
committed below the mark has an event in memory at or above it. -/
theorem handsOver_iff (identify : PendingRecord C V → String) (watermarks : Dict String ℕ)
    (relation : String) (mark : ℕ) (hmark : watermarks.get? relation = some mark)
    (txns : List (Delivery C V)) :
    HandsOver identify watermarks relation mark txns ↔
      ∀ d ∈ txns, d.commitLsn < mark → d.records identify relation ≠ [] →
        ∀ e ∈ d.txn.events, orZero e.lsn < mark := by
  constructor
  · intro h d hd hcommit hrecords
    have hnone : d.handed identify watermarks relation = [] := by
      rw [h.fence d hd, if_pos hcommit]
    rw [d.handed_of_mark identify watermarks hmark] at hnone
    by_cases hlt : orZero d.unit.fenceLsn < mark
    · exact (d.fenceLsn_lt.1 hlt).2
    · rw [if_neg hlt] at hnone
      exact absurd hnone hrecords
  · intro h
    have hfence := fence_of_memory hmark h
    refine ⟨hfence, fun d _ other hne mark' => d.handed_set identify watermarks hne mark', ?_⟩
    intro layout engine supportsPrimaryKey groups operations image S' hgroups himage hkeys htrace
      htexts hrender
    exact table_of_fence hfence layout engine supportsPrimaryKey hgroups himage hkeys htrace
      htexts hrender

end HandOver

namespace Accounts

/-- The record of an operation on the accounts at a position of the log. -/
def arrival (lsn : ℕ) (event : SourceEvent Column String) : PendingRecord Column String :=
  { full.record event with schema := some "public", table := some "accounts", lsn := some lsn }

/-- A transaction of the accounts, partly staged, that committed at a position. -/
def delivered (commitLsn : ℕ) (h : 0 < commitLsn)
    (staged memory : List (PendingRecord Column String)) : Delivery Column String where
  txn := { txnId := "7", beginSeen := true, events := memory, spillUnitSeq := some 1 }
  finish := { kind := .txnEnd, lsn := some commitLsn }
  commitLsn := commitLsn
  commitLsn_pos := h
  finish_lsn := rfl
  staged := staged.map fun event => { event := event, eventId := "1", target := "accounts" }
  staged_nil h := nomatch h

/-- The accounts were imaged at position 15. -/
def imagedAt : Dict String ℕ := (∅ : Dict String ℕ).set "public.accounts" 15

/-- A transaction the image holds, and one that was open at 15, with an event staged below it. -/
def overlapping : List (Delivery Column String) :=
  [delivered 10 (by decide) [] [arrival 8 (.insert (row "1" "a" "x"))],
    delivered 20 (by decide) [arrival 9 (.insert (row "2" "b" "y"))]
      [arrival 16 (.delete (row "1" "a" "x"))]]

theorem overlapping_handsOver :
    HandsOver (fun _ => "1") imagedAt "public.accounts" 15 overlapping := by
  refine (handsOver_iff (fun _ => "1") imagedAt "public.accounts" 15 (by rfl)
    overlapping).2 ?_
  intro d hd hcommit _
  rcases List.mem_pair.1 hd with rfl | rfl
  · decide
  · exact absurd hcommit (by decide)

/-- A transaction that committed below the mark, with an event in memory above it. -/
theorem overtaken_not_handsOver :
    ¬ HandsOver (fun _ => "1") imagedAt "public.accounts" 15
      [delivered 10 (by decide) [] [arrival 20 (.insert (row "1" "a" "x"))]] := by
  intro h
  have hlength := congrArg List.length (h.fence _ List.mem_cons_self)
  exact absurd hlength (by decide)

/-- Had the event been staged, the fence would have dropped it. -/
example : ((delivered 10 (by decide) [arrival 20 (.insert (row "1" "a" "x"))] []).handed
    (fun _ => "1") imagedAt "public.accounts").length = 0 := by
  rfl

end Accounts

end CdcFlight
