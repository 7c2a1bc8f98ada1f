import CdcFlight.Scd2.Chain

/-!
# Source histories of versioned rows

A source history of one generation of a relation, as row events: they carry the facts of the
generation, stand in the order of their commit position and ordinal, and the events of each
identity are a run of inserts, updates and deletes of one row. An image agrees with a row when
every column it carries has the row's value; how many columns an image carries is left open.

## Main definitions

* `CdcFlight.Scd2.Lineage`: the pipeline and the source of a generation.
* `CdcFlight.Scd2.RowStep`: one event on the row of an identity.
* `CdcFlight.Scd2.LegalHistory`: the source histories.

## Main results

* `CdcFlight.Scd2.LegalHistory.orderToken_lt`: tokens are in source order.
* `CdcFlight.Scd2.LegalHistory.eventId_ne`: event ids are distinct.
-/

namespace CdcFlight.Scd2

open Lib

variable {C V : Type} [DecidableEq C] [DecidableEq V]

/-- The pipeline, source cluster and timeline of the events. -/
structure Lineage where
  pipeline : String
  cluster : String
  timeline : ℤ

/-- The token of an event that carries its order facts. -/
def Event.orderToken (event : Event C V) : String :=
  (transactionOrderToken event.identity).toOption.getD ""

/-- The event carries the facts of the bundle's generation, a 64-bit position, and the identity
that `identity_for` builds from them. -/
structure Event.StreamedBy (event : Event C V) (lineage : Lineage) (bundle : Bundle C V)
    (lsn order : ℕ) : Prop where
  pipeline : event.pipeline = lineage.pipeline
  targetTable : event.targetTable = bundle.targetTable
  cluster_ne : lineage.cluster ≠ ""
  generation_ne : bundle.relationGeneration ≠ ""
  cluster : event.identity.sourceClusterId = some lineage.cluster
  timeline : event.identity.sourceTimeline = some lineage.timeline
  generation : event.identity.relationGeneration = some bundle.relationGeneration
  commitLsn : event.identity.commitLsn = some lsn
  totalOrder : event.identity.totalOrder = some (order : ℤ)
  lsn_lt : lsn < 2 ^ 64
  order_lt : order < 2 ^ 63
  eventId : ∃ txnId, event.identity.txnId = some txnId ∧ event.identity.eventId =
    streamEventId lineage.cluster lineage.timeline bundle.relationGeneration txnId lsn order

/-- The image carries values of the row only. -/
def AgreesWith (image : Option (Image C V)) (r : Row C V) : Prop :=
  ∀ image', image = some image' → ∀ c x, image'.get? c = some x → x = r c

/-- One event on the row of its identity, which may be absent. -/
inductive RowStep : Option (Row C V) → Event C V → Option (Row C V) → Prop
  | create {event : Event C V} {new : Row C V} (hop : event.operation = .create)
      (hafter : AgreesWith event.after new) : RowStep none event (some new)
  | update {event : Event C V} {old new : Row C V} (hop : event.operation = .update)
      (hbefore : AgreesWith event.before old) (hafter : AgreesWith event.after new) :
      RowStep (some old) event (some new)
  | delete {event : Event C V} {old : Row C V} (hop : event.operation = .delete)
      (hbefore : AgreesWith event.before old) : RowStep (some old) event none

/-- The commit position and the ordinal of an event. -/
def Event.position (event : Event C V) : ℕ × ℕ :=
  (event.identity.commitLsn.getD 0, (event.identity.totalOrder.getD 0).toNat)

/-- Source order. -/
def Event.Precedes (event event' : Event C V) : Prop :=
  event.position.1 < event'.position.1 ∨
    event.position.1 = event'.position.1 ∧ event.position.2 < event'.position.2

/-- The events of an identity, in the order given. -/
def eventsOf (history : List (Event C V)) (identity : SourceIdentity C V) : List (Event C V) :=
  history.filter (·.sourceIdentity = identity)

/-- **A legal source history** of one generation: streamed events in source order, and for each
identity a run of inserts, updates and deletes from the absent row. -/
structure LegalHistory (lineage : Lineage) (bundle : Bundle C V) (history : List (Event C V)) :
    Prop where
  streamed : ∀ event ∈ history, event.StreamedBy lineage bundle event.position.1 event.position.2
  ordered : history.Pairwise Event.Precedes
  rows : ∀ identity, ∃ last, Trace RowStep none (eventsOf history identity) last

namespace Event.StreamedBy

variable {event event' : Event C V} {lineage : Lineage} {bundle : Bundle C V} {l o l' o' : ℕ}

omit [DecidableEq C] [DecidableEq V]

theorem transactionOrderToken_eq (h : event.StreamedBy lineage bundle l o) :
    transactionOrderToken event.identity =
      .ok (Scd2.orderToken lineage.cluster lineage.timeline bundle.relationGeneration l o) := by
  simp [transactionOrderToken, h.cluster, h.timeline, h.generation, h.commitLsn, h.totalOrder,
    h.cluster_ne, h.generation_ne]

theorem orderToken_eq (h : event.StreamedBy lineage bundle l o) :
    event.orderToken =
      Scd2.orderToken lineage.cluster lineage.timeline bundle.relationGeneration l o := by
  simp [Event.orderToken, h.transactionOrderToken_eq, Except.toOption]

theorem transactionOrderToken_ok (h : event.StreamedBy lineage bundle l o) :
    transactionOrderToken event.identity = .ok event.orderToken := by
  rw [h.transactionOrderToken_eq, h.orderToken_eq]

theorem orderToken_lt_iff (h : event.StreamedBy lineage bundle l o)
    (h' : event'.StreamedBy lineage bundle l' o') :
    event.orderToken < event'.orderToken ↔ l < l' ∨ l = l' ∧ o < o' := by
  rw [h.orderToken_eq, h'.orderToken_eq]
  exact Scd2.orderToken_lt_iff (h.lsn_lt.trans (by decide)) (h'.lsn_lt.trans (by decide))
    (h.order_lt.trans (by decide)) (h'.order_lt.trans (by decide))

theorem eventId_eq (h : event.StreamedBy lineage bundle l o)
    (h' : event'.StreamedBy lineage bundle l' o') (heq : event.eventId = event'.eventId) :
    l = l' ∧ o = o' := by
  obtain ⟨txn, -, hid⟩ := h.eventId
  obtain ⟨txn', -, hid'⟩ := h'.eventId
  rw [Event.eventId, Event.eventId, hid, hid'] at heq
  exact streamEventId_inj heq

end Event.StreamedBy

namespace LegalHistory

variable {lineage : Lineage} {bundle : Bundle C V} {history : List (Event C V)}
  {event event' : Event C V}

theorem orderToken_lt_of_precedes (h : LegalHistory lineage bundle history)
    (hevent : event ∈ history) (hevent' : event' ∈ history) (hlt : event.Precedes event') :
    event.orderToken < event'.orderToken :=
  ((h.streamed event hevent).orderToken_lt_iff (h.streamed event' hevent')).2 hlt

/-- Tokens are in source order. -/
theorem orderToken_lt (h : LegalHistory lineage bundle history) :
    history.Pairwise fun event event' => event.orderToken < event'.orderToken := by
  have hmem : history.Pairwise fun event event' => event ∈ history ∧ event' ∈ history :=
    List.pairwise_iff_forall_sublist.2 fun hsub =>
      ⟨hsub.subset (by simp), hsub.subset (by simp)⟩
  exact h.ordered.imp₂ (fun _ _ hlt hin => h.orderToken_lt_of_precedes hin.1 hin.2 hlt) hmem

/-- Two events of a history with one token or one event id are the same. -/
theorem eq_of_orderToken (h : LegalHistory lineage bundle history) (hevent : event ∈ history)
    (hevent' : event' ∈ history) (heq : event.orderToken = event'.orderToken) : event = event' := by
  have hnodup : (history.map (·.orderToken)).Nodup :=
    (List.pairwise_map.2 h.orderToken_lt).imp ne_of_lt
  exact List.inj_on_of_nodup_map hnodup hevent hevent' heq

theorem eq_of_eventId (h : LegalHistory lineage bundle history) (hevent : event ∈ history)
    (hevent' : event' ∈ history) (heq : event.eventId = event'.eventId) : event = event' := by
  obtain ⟨hl, ho⟩ := (h.streamed event hevent).eventId_eq (h.streamed event' hevent') heq
  refine h.eq_of_orderToken hevent hevent' ?_
  rw [(h.streamed event hevent).orderToken_eq, (h.streamed event' hevent').orderToken_eq, hl, ho]

theorem nodup (h : LegalHistory lineage bundle history) : history.Nodup :=
  h.orderToken_lt.imp fun hlt heq => (heq ▸ hlt).false

end LegalHistory

omit [DecidableEq V] in
/-- The last event of a row that is present wrote it. -/
theorem exists_last_of_some {events : List (Event C V)} {r : Row C V}
    (h : Trace RowStep none events (some r)) :
    ∃ before last, events = before ++ [last] ∧ last.operation ≠ .delete ∧
      AgreesWith last.after r := by
  obtain rfl | ⟨before, last, rfl⟩ := events.eq_nil_or_concat
  · cases h
  · rw [List.concat_eq_append] at h ⊢
    obtain ⟨s, -, hlast⟩ := h.of_append
    cases hlast with
    | cons hstep hnil =>
      cases hnil
      cases hstep with
      | create hop hafter => exact ⟨before, last, rfl, by simp [hop], hafter⟩
      | update hop hbefore hafter => exact ⟨before, last, rfl, by simp [hop], hafter⟩

end CdcFlight.Scd2
