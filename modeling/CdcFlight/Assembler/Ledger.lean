import Mathlib

/-!
# What an assembler is for

An assembler sorts the records it is fed into parcels: one that is open for the current
transaction, one that is open for the current snapshot chunk, a queue of snapshot rows that wait
for a transaction to end, and the parcels already emitted. It says nothing about where the events
of a parcel are stored, nor which of its records are kept.

## Main definitions

* `CdcFlight.Parcel`, `CdcFlight.Ledger`: what went where.
* `CdcFlight.Ledger.Round`: what feeding one record may do.

## Main results

* `CdcFlight.Ledger.Round.balanced`: no record is lost or kept twice, every parcel keeps the order
  in which its records were fed, and its events are those among its records.
* `CdcFlight.Ledger.Round.ackSafe`, `CdcFlight.Ledger.Round.deferred_eq_nil`: an emitted parcel
  leaves no earlier event behind exactly when no snapshot row waits at the end of a transaction.
-/

namespace CdcFlight

variable {R : Type}

/-- What went into a unit: its events, and every record retained for it. -/
structure Parcel (R : Type) where
  events : List R := []
  records : List R := []

/-- An event joins the parcel. -/
def Parcel.push (p : Parcel R) (r : R) : Parcel R := ⟨p.events ++ [r], p.records ++ [r]⟩

/-- A record that is no event joins the parcel. -/
def Parcel.carry (p : Parcel R) (r : R) : Parcel R := ⟨p.events, p.records ++ [r]⟩

/-- The records fed, and where they are. -/
structure Ledger (R : Type) where
  fed : List R := []
  units : List (Parcel R) := []
  txn : Option (Parcel R) := none
  chunk : Option (Parcel R) := none
  deferred : List R := []
  /-- A parcel has been dropped. -/
  lossy : Bool := false

/-- The events of a parcel are the events among its records, in their order. -/
def Parcel.Own (isEvent : R → Bool) (p : Parcel R) : Prop := p.events = p.records.filter isEvent

namespace Parcel.Own

variable {isEvent : R → Bool} {p : Parcel R} {r : R}

theorem push (h : p.Own isEvent) (hr : isEvent r) : (p.push r).Own isEvent := by
  unfold Parcel.Own Parcel.push at *
  rw [List.filter_append, ← h, List.filter_cons_of_pos hr, List.filter_nil]

theorem carry (h : p.Own isEvent) (hr : isEvent r = false) : (p.carry r).Own isEvent := by
  unfold Parcel.Own Parcel.carry at *
  rw [List.filter_append, ← h, List.filter_cons_of_neg (by simp [hr]), List.filter_nil,
    List.append_nil]

theorem single (isEvent : R → Bool) (r : R) :
    (⟨if isEvent r then [r] else [], [r]⟩ : Parcel R).Own isEvent := by
  unfold Parcel.Own
  cases hr : isEvent r <;> simp [hr]

theorem getD {q : Option (Parcel R)} (h : ∀ p ∈ q, p.Own isEvent) : (q.getD {}).Own isEvent := by
  cases q with
  | none => rfl
  | some p => exact h p rfl

end Parcel.Own

namespace Ledger

/-- The open chunk is emitted. -/
def close (a : Ledger R) : Ledger R :=
  { a with units := a.units ++ a.chunk.toList, chunk := none }

theorem close_eq_self {a : Ledger R} (h : a.chunk = none) : a.close = a := by
  cases a
  simp_all [close]

/-- A record opens a transaction. -/
def begin (a : Ledger R) (r : R) : Ledger R :=
  { a with fed := a.fed ++ [r], txn := some ⟨[], [r]⟩ }

/-- An event joins the transaction, which may open with it. -/
def push (a : Ledger R) (r : R) : Ledger R :=
  { a with fed := a.fed ++ [r], txn := some ((a.txn.getD {}).push r) }

/-- The transaction carries a record that is no event. -/
def carry (a : Ledger R) (r : R) : Ledger R :=
  { a with fed := a.fed ++ [r], txn := a.txn.map (·.carry r) }

/-- The transaction ends with a record, and is emitted. -/
def complete (a : Ledger R) (r : R) : Ledger R :=
  { a with
    fed := a.fed ++ [r]
    units := a.units ++ (a.txn.map (·.carry r)).toList
    txn := none }

/-- A record is emitted as a parcel of its own. -/
def single (isEvent : R → Bool) (a : Ledger R) (r : R) : Ledger R :=
  { a with
    fed := a.fed ++ [r]
    units := a.units ++ [⟨if isEvent r then [r] else [], [r]⟩] }

/-- A snapshot row waits for the transaction to end. -/
def defer (a : Ledger R) (r : R) : Ledger R :=
  { a with fed := a.fed ++ [r], deferred := a.deferred ++ [r] }

/-- A snapshot row joins the chunk. -/
def read (a : Ledger R) (r : R) : Ledger R :=
  { a with fed := a.fed ++ [r], chunk := some ((a.chunk.getD {}).push r) }

/-- The first waiting row joins the chunk. -/
def release (a : Ledger R) (r : R) (rest : List R) : Ledger R :=
  { a with chunk := some ((a.chunk.getD {}).push r), deferred := rest }

/-- The chunk stays open or is emitted. -/
def MayClose (a b : Ledger R) : Prop := b = a ∨ b = a.close

/-- The release of one waiting row. -/
inductive Late (a : Ledger R) : Ledger R → Prop
  | release {b c : Ledger R} {r : R} {rest : List R} (htxn : a.txn = none) (h : MayClose a b)
      (hd : b.deferred = r :: rest) (h' : MayClose (b.release r rest) c) : Late a c

/-- **What feeding one record may do.** -/
inductive Round (isEvent : R → Bool) (a : Ledger R) (r : R) : Ledger R → Prop
  | defer (htxn : a.txn.isSome) (hr : isEvent r) : Round isEvent a r (a.defer r)
  | read {b c : Ledger R} (htxn : a.txn = none) (hd : a.deferred = []) (hr : isEvent r)
      (h : MayClose a b) (h' : MayClose (b.read r) c) : Round isEvent a r c
  | begin (htxn : a.txn = none) (hd : a.deferred = []) (hr : isEvent r = false) :
      Round isEvent a r (a.close.begin r)
  | push (hr : isEvent r) : Round isEvent a r (a.close.push r)
  | carry (htxn : a.txn.isSome) (hr : isEvent r = false) : Round isEvent a r (a.close.carry r)
  | single (htxn : a.txn = none) (hd : a.deferred = []) :
      Round isEvent a r (a.close.single isEvent r)
  | complete {b : Ledger R} (htxn : a.txn.isSome) (hr : isEvent r = false)
      (h : Relation.ReflTransGen Late (a.complete r) b) (hd : b.deferred = []) :
      Round isEvent a r b

/-! ### Balance -/

/-- The events of a parcel that may not be there. -/
def eventsOf (p : Option (Parcel R)) : List R := (p.map Parcel.events).getD []

/-- The records of a parcel that may not be there. -/
def recordsOf (p : Option (Parcel R)) : List R := (p.map Parcel.records).getD []

@[simp] theorem eventsOf_none : eventsOf (none : Option (Parcel R)) = [] := rfl

@[simp] theorem eventsOf_some (p : Parcel R) : eventsOf (some p) = p.events := rfl

@[simp] theorem recordsOf_none : recordsOf (none : Option (Parcel R)) = [] := rfl

@[simp] theorem recordsOf_some (p : Parcel R) : recordsOf (some p) = p.records := rfl

@[simp] theorem events_getD (p : Option (Parcel R)) : (p.getD {}).events = eventsOf p := by
  cases p <;> rfl

@[simp] theorem records_getD (p : Option (Parcel R)) : (p.getD {}).records = recordsOf p := by
  cases p <;> rfl

/-- The events, wherever they are. -/
def heldEvents (a : Ledger R) : Multiset R :=
  (a.units.flatMap Parcel.events : Multiset R) + (eventsOf a.txn : Multiset R) +
    (eventsOf a.chunk : Multiset R) + (a.deferred : Multiset R)

/-- The records, wherever they are. -/
def heldRecords (a : Ledger R) : Multiset R :=
  (a.units.flatMap Parcel.records : Multiset R) + (recordsOf a.txn : Multiset R) +
    (recordsOf a.chunk : Multiset R) + (a.deferred : Multiset R)

/-- Nothing fed is lost or kept twice, every parcel keeps the order of the feed, and its events are
those among its records. -/
structure Balanced (isEvent : R → Bool) (a : Ledger R) : Prop where
  events : a.heldEvents = (a.fed.filter isEvent : Multiset R)
  records : a.heldRecords = (a.fed : Multiset R)
  units_own : ∀ p ∈ a.units, p.Own isEvent
  txn_own : ∀ p ∈ a.txn, p.Own isEvent
  chunk_own : ∀ p ∈ a.chunk, p.Own isEvent
  waiting : ∀ r ∈ a.deferred, isEvent r
  units_order : ∀ p ∈ a.units, p.records.Sublist a.fed
  txn_order : (recordsOf a.txn).Sublist a.fed
  chunk_order : (recordsOf a.chunk ++ a.deferred).Sublist a.fed

namespace Balanced

variable {isEvent : R → Bool} {a : Ledger R} {r : R}

theorem init : Balanced isEvent ({} : Ledger R) where
  events := rfl
  records := rfl
  units_own := List.forall_mem_nil _
  txn_own _ hp := nomatch hp
  chunk_own _ hp := nomatch hp
  waiting := List.forall_mem_nil _
  units_order := List.forall_mem_nil _
  txn_order := List.Sublist.refl []
  chunk_order := List.Sublist.refl []

private theorem sublist_fed (a : Ledger R) (r : R) : a.fed.Sublist (a.fed ++ [r]) :=
  List.sublist_append_left _ _

theorem close (h : a.Balanced isEvent) : a.close.Balanced isEvent where
  events := by
    refine Eq.trans ?_ h.events
    cases hc : a.chunk with
    | none => simp [heldEvents, Ledger.close, hc]
    | some p =>
      simp only [heldEvents, Ledger.close, hc, Option.toList_some, List.flatMap_append,
        List.flatMap_singleton, eventsOf_some, eventsOf_none, Multiset.coe_nil,
        ← Multiset.coe_add]
      abel
  records := by
    refine Eq.trans ?_ h.records
    cases hc : a.chunk with
    | none => simp [heldRecords, Ledger.close, hc]
    | some p =>
      simp only [heldRecords, Ledger.close, hc, Option.toList_some, List.flatMap_append,
        List.flatMap_singleton, recordsOf_some, recordsOf_none, Multiset.coe_nil,
        ← Multiset.coe_add]
      abel
  units_own p hp := (List.mem_append.1 hp).elim (h.units_own p) fun hp =>
    h.chunk_own p (Option.mem_toList.1 hp)
  txn_own := h.txn_own
  chunk_own _ hp := nomatch hp
  waiting := h.waiting
  units_order p hp := by
    rcases List.mem_append.1 hp with hp | hp
    · exact h.units_order p hp
    · have hchunk : a.chunk = some p := Option.mem_toList.1 hp
      refine (List.sublist_append_left _ _).trans (?_ : (p.records ++ a.deferred).Sublist a.fed)
      simpa [hchunk] using h.chunk_order
  txn_order := h.txn_order
  chunk_order := (List.sublist_append_right _ _).trans h.chunk_order

/-- A record placed at the end of the transaction's parcel. -/
theorem begin (h : a.Balanced isEvent) (htxn : a.txn = none) (hr : isEvent r = false) :
    (a.begin r).Balanced isEvent where
  events := by
    simp only [Ledger.begin, List.filter_append, List.filter_cons_of_neg (by simpa using hr),
      List.filter_nil, List.append_nil, ← h.events]
    simp [heldEvents, htxn]
  records := by
    simp only [Ledger.begin, ← Multiset.coe_add, ← h.records]
    simp only [heldRecords, htxn, recordsOf_none, recordsOf_some, Multiset.coe_nil]
    abel
  units_own := h.units_own
  txn_own p hp := by
    obtain rfl := Option.mem_some_iff.1 hp
    simpa [hr] using Parcel.Own.single isEvent r
  chunk_own := h.chunk_own
  waiting := h.waiting
  units_order p hp := (h.units_order p hp).trans (sublist_fed a r)
  txn_order := List.sublist_append_right _ _
  chunk_order := h.chunk_order.trans (sublist_fed a r)

theorem push (h : a.Balanced isEvent) (hr : isEvent r) : (a.push r).Balanced isEvent where
  events := by
    simp only [Ledger.push, List.filter_append, List.filter_cons_of_pos hr, List.filter_nil,
      ← Multiset.coe_add, ← h.events]
    simp only [heldEvents, eventsOf_some, Parcel.push, events_getD, ← Multiset.coe_add]
    abel
  records := by
    simp only [Ledger.push, ← Multiset.coe_add, ← h.records]
    simp only [heldRecords, recordsOf_some, Parcel.push, records_getD, ← Multiset.coe_add]
    abel
  units_own := h.units_own
  txn_own p hp := by
    obtain rfl := Option.mem_some_iff.1 hp
    exact (Parcel.Own.getD h.txn_own).push hr
  chunk_own := h.chunk_own
  waiting := h.waiting
  units_order p hp := (h.units_order p hp).trans (sublist_fed a r)
  txn_order := by
    simp only [Ledger.push, recordsOf_some, Parcel.push, records_getD]
    exact h.txn_order.append (List.Sublist.refl _)
  chunk_order := h.chunk_order.trans (sublist_fed a r)

theorem carry (h : a.Balanced isEvent) (htxn : a.txn.isSome) (hr : isEvent r = false) :
    (a.carry r).Balanced isEvent := by
  obtain ⟨p, hp⟩ := Option.isSome_iff_exists.1 htxn
  refine ⟨?_, ?_, h.units_own, fun q hq => ?_, h.chunk_own, h.waiting,
    fun q hq => (h.units_order q hq).trans (sublist_fed a r), ?_,
    h.chunk_order.trans (sublist_fed a r)⟩
  · simp only [Ledger.carry, List.filter_append, List.filter_cons_of_neg (by simpa using hr),
      List.filter_nil, List.append_nil, ← h.events]
    simp [heldEvents, hp, Parcel.carry]
  · simp only [Ledger.carry, ← Multiset.coe_add, ← h.records]
    simp only [heldRecords, hp, Option.map_some, recordsOf_some, Parcel.carry,
      ← Multiset.coe_add]
    abel
  · simp only [Ledger.carry, hp, Option.map_some, Option.mem_some_iff] at hq
    exact hq ▸ (h.txn_own p hp).carry hr
  · have horder := h.txn_order
    simp only [Ledger.carry, hp, Option.map_some, recordsOf_some, Parcel.carry] at horder ⊢
    exact horder.append (List.Sublist.refl _)

theorem complete (h : a.Balanced isEvent) (htxn : a.txn.isSome) (hr : isEvent r = false) :
    (a.complete r).Balanced isEvent := by
  obtain ⟨p, hp⟩ := Option.isSome_iff_exists.1 htxn
  have hunits : (a.complete r).units = a.units ++ [p.carry r] := by
    simp [Ledger.complete, hp]
  refine ⟨?_, ?_, fun q hq => ?_, fun q hq => (by cases hq), h.chunk_own, h.waiting,
    fun q hq => ?_, List.nil_sublist _, h.chunk_order.trans (sublist_fed a r)⟩
  · simp only [Ledger.complete, List.filter_append, List.filter_cons_of_neg (by simpa using hr),
      List.filter_nil, List.append_nil, ← h.events]
    simp only [heldEvents, hp, Option.map_some, Option.toList_some, List.flatMap_append,
      List.flatMap_singleton, Parcel.carry, eventsOf_some, eventsOf_none, Multiset.coe_nil,
      ← Multiset.coe_add]
    abel
  · simp only [Ledger.complete, ← Multiset.coe_add, ← h.records]
    simp only [heldRecords, hp, Option.map_some, Option.toList_some, List.flatMap_append,
      List.flatMap_singleton, Parcel.carry, recordsOf_some, recordsOf_none, Multiset.coe_nil,
      ← Multiset.coe_add]
    abel
  · rw [hunits] at hq
    rcases List.mem_append.1 hq with hq | hq
    · exact h.units_own q hq
    · exact List.mem_singleton.1 hq ▸ (h.txn_own p hp).carry hr
  · rw [hunits] at hq
    rcases List.mem_append.1 hq with hq | hq
    · exact (h.units_order q hq).trans (sublist_fed a r)
    · have horder := h.txn_order
      rw [hp] at horder
      rw [List.mem_singleton.1 hq]
      exact horder.append (List.Sublist.refl _)

theorem single (h : a.Balanced isEvent) : (a.single isEvent r).Balanced isEvent where
  events := by
    simp only [Ledger.single, List.filter_append, ← Multiset.coe_add, ← h.events]
    simp only [heldEvents, List.flatMap_append, List.flatMap_singleton, ← Multiset.coe_add]
    cases hr : isEvent r with
    | false => simp [hr]
    | true =>
      rw [List.filter_cons_of_pos hr, List.filter_nil, if_pos rfl]
      abel
  records := by
    simp only [Ledger.single, ← Multiset.coe_add, ← h.records]
    simp only [heldRecords, List.flatMap_append, List.flatMap_singleton, ← Multiset.coe_add]
    abel
  units_own p hp := by
    rcases List.mem_append.1 hp with hp | hp
    · exact h.units_own p hp
    · rw [List.mem_singleton.1 hp]
      exact .single isEvent r
  txn_own := h.txn_own
  chunk_own := h.chunk_own
  waiting := h.waiting
  units_order p hp := by
    rcases List.mem_append.1 hp with hp | hp
    · exact (h.units_order p hp).trans (sublist_fed a r)
    · rw [List.mem_singleton.1 hp]
      exact List.sublist_append_right _ _
  txn_order := h.txn_order.trans (sublist_fed a r)
  chunk_order := h.chunk_order.trans (sublist_fed a r)

theorem defer (h : a.Balanced isEvent) (hr : isEvent r) : (a.defer r).Balanced isEvent where
  events := by
    simp only [Ledger.defer, List.filter_append, List.filter_cons_of_pos hr, List.filter_nil,
      ← Multiset.coe_add, ← h.events]
    simp only [heldEvents, ← Multiset.coe_add]
    abel
  records := by
    simp only [Ledger.defer, ← Multiset.coe_add, ← h.records]
    simp only [heldRecords, ← Multiset.coe_add]
    abel
  units_own := h.units_own
  txn_own := h.txn_own
  chunk_own := h.chunk_own
  waiting x hx := (List.mem_append.1 hx).elim (h.waiting x) fun hx =>
    List.mem_singleton.1 hx ▸ hr
  units_order p hp := (h.units_order p hp).trans (sublist_fed a r)
  txn_order := h.txn_order.trans (sublist_fed a r)
  chunk_order := by
    simp only [Ledger.defer, ← List.append_assoc]
    exact h.chunk_order.append (List.Sublist.refl _)

theorem read (h : a.Balanced isEvent) (hd : a.deferred = []) (hr : isEvent r) :
    (a.read r).Balanced isEvent where
  events := by
    simp only [Ledger.read, List.filter_append, List.filter_cons_of_pos hr, List.filter_nil,
      ← Multiset.coe_add, ← h.events]
    simp only [heldEvents, eventsOf_some, Parcel.push, events_getD, ← Multiset.coe_add]
    abel
  records := by
    simp only [Ledger.read, ← Multiset.coe_add, ← h.records]
    simp only [heldRecords, recordsOf_some, Parcel.push, records_getD, ← Multiset.coe_add]
    abel
  units_own := h.units_own
  txn_own := h.txn_own
  chunk_own p hp := by
    obtain rfl := Option.mem_some_iff.1 hp
    exact (Parcel.Own.getD h.chunk_own).push hr
  waiting := h.waiting
  units_order p hp := (h.units_order p hp).trans (sublist_fed a r)
  txn_order := h.txn_order.trans (sublist_fed a r)
  chunk_order := by
    have horder := h.chunk_order
    simp only [hd, List.append_nil, Ledger.read, recordsOf_some, Parcel.push, records_getD]
      at horder ⊢
    exact horder.append (List.Sublist.refl _)

theorem release (h : a.Balanced isEvent) {rest : List R} (hd : a.deferred = r :: rest) :
    (a.release r rest).Balanced isEvent where
  events := by
    refine Eq.trans ?_ h.events
    simp only [Ledger.release, heldEvents, hd, eventsOf_some, Parcel.push, events_getD,
      ← Multiset.coe_add, ← Multiset.cons_coe, ← Multiset.singleton_add]
    abel
  records := by
    refine Eq.trans ?_ h.records
    simp only [Ledger.release, heldRecords, hd, recordsOf_some, Parcel.push, records_getD,
      ← Multiset.coe_add, ← Multiset.cons_coe, ← Multiset.singleton_add]
    abel
  units_own := h.units_own
  txn_own := h.txn_own
  chunk_own p hp := by
    obtain rfl := Option.mem_some_iff.1 hp
    exact (Parcel.Own.getD h.chunk_own).push (h.waiting r (hd ▸ List.mem_cons_self))
  waiting x hx := h.waiting x (hd ▸ List.mem_cons_of_mem r hx)
  units_order := h.units_order
  txn_order := h.txn_order
  chunk_order := by
    have horder := h.chunk_order
    simp only [hd, Ledger.release, recordsOf_some, Parcel.push, records_getD, List.append_assoc,
      List.singleton_append] at horder ⊢
    exact horder

theorem mayClose {b : Ledger R} (h : a.Balanced isEvent) (hb : MayClose a b) :
    b.Balanced isEvent := by
  rcases hb with rfl | rfl
  · exact h
  · exact h.close

/-- The events of an emitted parcel are in feed order. -/
theorem sublist_of_mem_units (h : a.Balanced isEvent) {p : Parcel R} (hp : p ∈ a.units) :
    p.events.Sublist a.fed := by
  rw [h.units_own p hp]
  exact List.filter_sublist.trans (h.units_order p hp)

end Balanced

/-! ### Rounds -/

/-- Between two rounds: a transaction and a chunk are not open together, and rows wait only while a
transaction is open. -/
structure Quiet (a : Ledger R) : Prop where
  exclusive : a.txn.isSome → a.chunk = none
  settled : a.txn = none → a.deferred = []

theorem Quiet.init : ({} : Ledger R).Quiet := ⟨fun _ => rfl, fun _ => rfl⟩

section Rounds

variable {isEvent : R → Bool} {a b : Ledger R} {r : R}

theorem MayClose.frame (h : MayClose a b) : b.txn = a.txn ∧ b.deferred = a.deferred ∧
    b.fed = a.fed ∧ a.units <+: b.units := by
  rcases h with rfl | rfl
  · exact ⟨rfl, rfl, rfl, List.prefix_rfl⟩
  · exact ⟨rfl, rfl, rfl, List.prefix_append _ _⟩

theorem Late.frame (h : Late a b) : b.txn = none ∧ b.fed = a.fed ∧ a.units <+: b.units := by
  cases h with
  | @release b _ r rest htxn h hd h' =>
    obtain ⟨hb, -, hbf, hbu⟩ := h.frame
    obtain ⟨hc, -, hcf, hcu⟩ := h'.frame
    exact ⟨hc.trans (hb.trans htxn), hcf.trans hbf, hbu.trans hcu⟩

theorem MayClose.lossy_eq (h : MayClose a b) : b.lossy = a.lossy := by
  rcases h with rfl | rfl <;> rfl

theorem Late.lossy_eq (h : Late a b) : b.lossy = a.lossy := by
  cases h with
  | release _ h _ h' => exact h'.lossy_eq.trans h.lossy_eq

theorem late_lossy_eq (h : Relation.ReflTransGen Late a b) : b.lossy = a.lossy := by
  induction h with
  | refl => rfl
  | tail _ hlate ih => exact hlate.lossy_eq.trans ih

theorem Late.balanced (h : Late a b) (ha : a.Balanced isEvent) : b.Balanced isEvent := by
  cases h with
  | release _ h hd h' => exact ((ha.mayClose h).release hd).mayClose h'

theorem late_frame (h : Relation.ReflTransGen Late a b) (htxn : a.txn = none) :
    b.txn = none ∧ b.fed = a.fed ∧ a.units <+: b.units := by
  induction h with
  | refl => exact ⟨htxn, rfl, List.prefix_rfl⟩
  | tail _ hlate ih =>
    obtain ⟨hc, hcf, hcu⟩ := hlate.frame
    exact ⟨hc, hcf.trans ih.2.1, ih.2.2.trans hcu⟩

theorem late_balanced (h : Relation.ReflTransGen Late a b) (ha : a.Balanced isEvent) :
    b.Balanced isEvent := by
  induction h with
  | refl => exact ha
  | tail _ hlate ih => exact hlate.balanced ih

namespace Round

/-- **Feeding a record loses nothing and keeps nothing twice.** -/
theorem balanced (h : Round isEvent a r b) (ha : a.Balanced isEvent) : b.Balanced isEvent := by
  cases h with
  | defer _ hr => exact ha.defer hr
  | read htxn hd hr h h' =>
    exact ((ha.mayClose h).read (h.frame.2.1.trans hd) hr).mayClose h'
  | begin htxn _ hr => exact ha.close.begin htxn hr
  | push hr => exact ha.close.push hr
  | carry htxn hr => exact ha.close.carry htxn hr
  | single _ _ => exact ha.close.single
  | complete htxn hr h _ => exact late_balanced h (ha.complete htxn hr)

theorem quiet (h : Round isEvent a r b) (ha : a.Quiet) : b.Quiet := by
  cases h with
  | defer htxn _ =>
    refine ⟨ha.exclusive, fun hnone => ?_⟩
    rw [show a.txn = none from hnone] at htxn
    cases htxn
  | read htxn hd _ h h' =>
    obtain ⟨hb, hbd, -, -⟩ := h.frame
    obtain ⟨hc, hcd, -, -⟩ := h'.frame
    have hnone : b.txn = none := hc.trans (hb.trans htxn)
    exact ⟨fun hsome => by simp [hnone] at hsome, fun _ => hcd.trans (hbd.trans hd)⟩
  | begin _ _ _ => exact ⟨fun _ => rfl, fun hnone => by cases hnone⟩
  | push _ => exact ⟨fun _ => rfl, fun hnone => by cases hnone⟩
  | carry htxn _ =>
    refine ⟨fun _ => rfl, fun hnone => ?_⟩
    obtain ⟨p, hp⟩ := Option.isSome_iff_exists.1 htxn
    simp [Ledger.carry, Ledger.close, hp] at hnone
  | single htxn hd =>
    exact ⟨fun hsome => by simp [Ledger.single, Ledger.close, htxn] at hsome, fun _ => hd⟩
  | complete _ _ h hd =>
    have hnone := (late_frame h rfl).1
    exact ⟨fun hsome => by simp [hnone] at hsome, fun _ => hd⟩

theorem fed_eq (h : Round isEvent a r b) : b.fed = a.fed ++ [r] := by
  cases h with
  | read _ _ _ h h' =>
    rw [h'.frame.2.2.1, ← h.frame.2.2.1]
    rfl
  | complete _ _ h _ => exact (late_frame h rfl).2.1
  | _ => rfl

/-- A round drops nothing. -/
theorem lossy_eq (h : Round isEvent a r b) : b.lossy = a.lossy := by
  cases h with
  | read _ _ _ h h' => exact h'.lossy_eq.trans h.lossy_eq
  | complete _ _ h _ => exact (late_lossy_eq h).trans rfl
  | _ => rfl

theorem units_prefix (h : Round isEvent a r b) : a.units <+: b.units := by
  cases h with
  | defer _ _ => exact List.prefix_rfl
  | read _ _ _ h h' => exact h.frame.2.2.2.trans h'.frame.2.2.2
  | begin _ _ _ => exact List.prefix_append _ _
  | push _ => exact List.prefix_append _ _
  | carry _ _ => exact List.prefix_append _ _
  | single _ _ => exact (List.prefix_append _ _).trans (List.prefix_append _ _)
  | complete _ _ h _ => exact (List.prefix_append _ _).trans (late_frame h rfl).2.2

end Round

/-! ### Acknowledgement -/

/-- **No acknowledgement past held events.** Every event fed before the last record of an emitted
parcel is in that parcel or in one emitted before it. -/
def AckSafe (isEvent : R → Bool) (a : Ledger R) : Prop :=
  ∀ i p last, a.units[i]? = some p → p.records.getLast? = some last →
    ∀ e, isEvent e → [e, last].Sublist a.fed → e ∈ (a.units.take (i + 1)).flatMap Parcel.events

/-- Nothing is open and nothing waits. -/
structure Idle (a : Ledger R) : Prop where
  txn : a.txn = none
  chunk : a.chunk = none
  deferred : a.deferred = []

theorem Balanced.mem_units_of_idle (h : a.Balanced isEvent) (hidle : a.Idle) {e : R}
    (he : e ∈ a.fed) (hevent : isEvent e) : e ∈ a.units.flatMap Parcel.events := by
  have hmem : e ∈ (a.fed.filter isEvent : Multiset R) :=
    Multiset.mem_coe.2 (List.mem_filter.2 ⟨he, hevent⟩)
  rw [← h.events] at hmem
  simpa [heldEvents, hidle.txn, hidle.chunk, hidle.deferred] using hmem

theorem Balanced.mem_fed_of_records (h : a.Balanced isEvent) {p : Parcel R} (hp : p ∈ a.units)
    {x : R} (hx : x ∈ p.records) : x ∈ a.fed := by
  have hmem : x ∈ a.heldRecords := by
    simp only [heldRecords, Multiset.mem_add, Multiset.mem_coe, List.mem_flatMap]
    exact Or.inl (Or.inl (Or.inl ⟨p, hp, hx⟩))
  rw [h.records] at hmem
  exact Multiset.mem_coe.1 hmem

private theorem sublist_of_append {l m : List R} {e x : R} (h : [e, x].Sublist (l ++ m))
    (hx : x ∉ m) : [e, x].Sublist l := by
  obtain ⟨l₁, l₂, heq, h₁, h₂⟩ := List.sublist_append_iff.1 h
  rcases List.eq_nil_or_concat' l₂ with rfl | ⟨l₃, y, rfl⟩
  · simpa [heq] using h₁
  · have hlast := congrArg List.getLast? heq
    rw [← List.append_assoc, List.getLast?_concat] at hlast
    obtain rfl : x = y := by simpa using hlast
    exact absurd (h₂.subset (by simp)) hx

/-- Records arrive, and at most one parcel is emitted, which leaves nothing behind. -/
theorem AckSafe.step (h : a.AckSafe isEvent) (ha : a.Balanced isEvent) (hb : b.Balanced isEvent)
    (hfed : a.fed <+: b.fed) (hnodup : b.fed.Nodup)
    (hunits : b.units = a.units ∨ (∃ p, b.units = a.units ++ [p]) ∧ b.Idle) :
    b.AckSafe isEvent := by
  intro i p last hp hlast e he hsub
  have hold (hi : a.units[i]? = some p) : e ∈ (a.units.take (i + 1)).flatMap Parcel.events := by
    refine h i p last hi hlast e he ?_
    obtain ⟨rs, hrs⟩ := hfed
    rw [← hrs] at hsub hnodup
    refine sublist_of_append hsub fun hlr => ?_
    have hmem := ha.mem_fed_of_records (List.mem_of_getElem? hi) (List.mem_of_getLast? hlast)
    exact List.disjoint_of_nodup_append hnodup hmem hlr
  rcases hunits with hunits | ⟨⟨q, hunits⟩, hidle⟩
  · rw [hunits] at hp ⊢
    exact hold hp
  · by_cases hi : i < a.units.length
    · rw [hunits, List.getElem?_append_left hi] at hp
      rw [hunits, List.take_append_of_le_length hi]
      exact hold hp
    · have hall : b.units.take (i + 1) = b.units := by
        refine List.take_of_length_le ?_
        rw [hunits, List.length_append, List.length_singleton]
        omega
      rw [hall]
      exact hb.mem_units_of_idle hidle (hsub.subset List.mem_cons_self) he

theorem AckSafe.close (h : a.AckSafe isEvent) (ha : a.Balanced isEvent) (hnodup : a.fed.Nodup)
    (htxn : a.txn = none) (hd : a.deferred = []) : a.close.AckSafe isEvent := by
  cases hchunk : a.chunk with
  | none => rwa [close_eq_self hchunk]
  | some p =>
    refine h.step ha ha.close List.prefix_rfl hnodup (Or.inr ⟨⟨p, ?_⟩, htxn, rfl, hd⟩)
    simp [Ledger.close, hchunk]

namespace Round

/-- A round of an accepted feed is safe unless rows wait at the end of a transaction. -/
theorem ackSafe (h : Round isEvent a r b) (ha : a.Balanced isEvent) (hquiet : a.Quiet)
    (hsafe : a.AckSafe isEvent) (hnodup : b.fed.Nodup)
    (hwait : a.txn.isSome → b.txn = none → a.deferred = []) : b.AckSafe isEvent := by
  have hfed := h.fed_eq
  have hb := h.balanced ha
  have ha' : a.fed.Nodup := (hfed ▸ hnodup).of_append_left
  -- a chunk is open only where nothing waits
  have hclose : a.close.AckSafe isEvent := by
    cases hchunk : a.chunk with
    | none => rwa [close_eq_self hchunk]
    | some p =>
      have htxn : a.txn = none := by
        by_contra hsome
        have hnone := hquiet.exclusive (Option.isSome_iff_ne_none.2 hsome)
        rw [hchunk] at hnone
        cases hnone
      exact hsafe.close ha ha' htxn (hquiet.settled htxn)
  cases h with
  | defer _ hr =>
    exact hsafe.step ha hb (List.prefix_append _ _) hnodup (Or.inl rfl)
  | @read b c htxn hd hr h h' =>
    have hbsafe : b.AckSafe isEvent := by
      rcases h with rfl | rfl
      · exact hsafe
      · exact hclose
    have hbbal := ha.mayClose h
    have hread : (b.read r).AckSafe isEvent := by
      refine hbsafe.step hbbal (hbbal.read (h.frame.2.1.trans hd) hr) (List.prefix_append _ _) ?_
        (Or.inl rfl)
      rwa [show (b.read r).fed = b.fed ++ [r] from rfl, h.frame.2.2.1, ← hfed]
    rcases h' with rfl | rfl
    · exact hread
    · refine hread.close (hbbal.read (h.frame.2.1.trans hd) hr) ?_ (h.frame.1.trans htxn)
        (h.frame.2.1.trans hd)
      rwa [show (b.read r).fed = b.fed ++ [r] from rfl, h.frame.2.2.1, ← hfed]
  | begin _ _ _ => exact hclose.step ha.close hb (List.prefix_append _ _) hnodup (Or.inl rfl)
  | push _ => exact hclose.step ha.close hb (List.prefix_append _ _) hnodup (Or.inl rfl)
  | carry _ _ => exact hclose.step ha.close hb (List.prefix_append _ _) hnodup (Or.inl rfl)
  | single htxn hd =>
    exact hclose.step ha.close hb (List.prefix_append _ _) hnodup
      (Or.inr ⟨⟨_, rfl⟩, htxn, rfl, hd⟩)
  | complete htxn hr h hd =>
    have hnil := hwait htxn (late_frame h rfl).1
    have hsame : b = a.complete r := by
      rcases Relation.ReflTransGen.cases_head h with heq | ⟨c, hlate, -⟩
      · exact heq.symm
      · cases hlate with
        | release _ hmay hdef _ =>
          rw [hmay.frame.2.1, show (a.complete r).deferred = a.deferred from rfl, hnil] at hdef
          cases hdef
    subst hsame
    obtain ⟨p, hp⟩ := Option.isSome_iff_exists.1 htxn
    refine hsafe.step ha hb (List.prefix_append _ _) hnodup
      (Or.inr ⟨⟨p.carry r, ?_⟩, rfl, hquiet.exclusive htxn, hnil⟩)
    simp [Ledger.complete, hp]

/-- Rows that wait at the end of a transaction make the ledger unsafe for good. -/
theorem deferred_eq_nil {z : Ledger R} (h : Round isEvent a r b) (ha : a.Balanced isEvent)
    (htxn : a.txn.isSome) (hb : b.txn = none) (hunits : b.units <+: z.units)
    (hfed : b.fed <+: z.fed) (hnodup : b.fed.Nodup) {isRow : R → Bool}
    (hrows : ∀ d ∈ a.deferred, isRow d) (hsafe : z.AckSafe isRow) : a.deferred = [] := by
  obtain ⟨p, hp⟩ := Option.isSome_iff_exists.1 htxn
  have hcomplete : isEvent r = false ∧ (a.units ++ [p.carry r]) <+: b.units := by
    cases h with
    | complete _ hr h _ =>
      refine ⟨hr, ?_⟩
      have hpre := (late_frame h rfl).2.2
      rwa [show (a.complete r).units = a.units ++ [p.carry r] by simp [Ledger.complete, hp]]
        at hpre
    | defer _ _ => simp [Ledger.defer, hp] at hb
    | read hnone _ _ _ _ => simp [hp] at hnone
    | begin hnone _ _ => simp [hp] at hnone
    | push _ => simp [Ledger.push] at hb
    | carry _ _ => simp [Ledger.carry, Ledger.close, hp] at hb
    | single hnone _ => simp [hp] at hnone
  obtain ⟨hr, hstart⟩ := hcomplete
  have hbal := ha.complete htxn hr
  have hfed' : a.fed ++ [r] <+: z.fed := h.fed_eq ▸ hfed
  cases hd : a.deferred with
  | nil => rfl
  | cons d rest =>
    exfalso
    have hevents : (a.complete r).heldEvents.Nodup := by
      rw [hbal.events]
      exact (h.fed_eq ▸ hnodup : (a.fed ++ [r]).Nodup).filter _
    have hdfed : d ∈ (a.fed.filter isEvent : Multiset R) := by
      rw [← ha.events]
      simp [heldEvents, hd]
    have hmem := (List.mem_filter.1 (Multiset.mem_coe.1 hdfed)).1
    have hunit : z.units[a.units.length]? = some (p.carry r) := by
      obtain ⟨us, hus⟩ := hstart.trans hunits
      rw [← hus]
      simp
    have hlast : (p.carry r).records.getLast? = some r := by simp [Parcel.carry]
    have hsub : [d, r].Sublist z.fed :=
      ((List.singleton_sublist.2 hmem).append (List.Sublist.refl [r])).trans hfed'.sublist
    have hin := hsafe _ _ _ hunit hlast d (hrows d (hd ▸ List.mem_cons_self)) hsub
    have htake : z.units.take (a.units.length + 1) = a.units ++ [p.carry r] := by
      obtain ⟨us, hus⟩ := hstart.trans hunits
      rw [← hus, List.take_append_of_le_length (by simp), List.take_of_length_le (by simp)]
    rw [htake] at hin
    have hheld : (a.complete r).heldEvents =
        ((a.units ++ [p.carry r]).flatMap Parcel.events : Multiset R) +
          (eventsOf a.chunk : Multiset R) + (a.deferred : Multiset R) := by
      simp [heldEvents, Ledger.complete, hp]
    rw [hheld, hd] at hevents
    refine Multiset.disjoint_left.1 (Multiset.nodup_add.1 hevents).2.2
      (Multiset.mem_add.2 (Or.inl (Multiset.mem_coe.2 hin))) ?_
    exact Multiset.mem_coe.2 List.mem_cons_self

end Round

end Rounds

end Ledger

end CdcFlight
