import CdcFlight.Assembler.Wholeness
import CdcFlight.Lib.Keyed

/-!
# Conservation

Along a feed that the assembler accepts, every event fed is in exactly one place: an emitted unit,
a batch handed to the spill callback, the open transaction or chunk, or the queue of waiting rows.
An assembler that discards the stream drops the events of transactions, and only those.

## Main definitions

* `CdcFlight.feedAll`: a feed that stops at the first raise.
* `CdcFlight.placed`: the places an event can be in.
* `CdcFlight.Conserved`: nothing is lost or kept twice.

## Main results

* `CdcFlight.Tracks.feedAll`: an accepted feed is a run of the ledger.
* `CdcFlight.feedAll_conserves`: an accepted feed conserves events and records.
-/

namespace CdcFlight

open Lib

variable {C V : Type} {cfg : AssemblerConfig C V} {s s' : Assembler C V}
  {emitted units : List (CompleteUnit C V)} {since : List (PendingRecord C V)}
  {a : Ledger (PendingRecord C V)} {calls : List (SpillCall C V)}

/-- The inputs one after the other, up to the first raise. -/
def feedAll (cfg : AssemblerConfig C V) :
    List (Input C V) → Assemble C V (List (CompleteUnit C V))
  | [] => return []
  | input :: rest => do
    let units ← input.feed cfg
    let more ← feedAll cfg rest
    return units ++ more

/-- **An accepted feed is a run of the ledger.** -/
theorem Tracks.feedAll (h : Tracks cfg s emitted since a) (hquiet : a.Quiet)
    {inputs : List (Input C V)} (hrun : (feedAll cfg inputs).run s = .ok units s') :
    ∃ b since', Trace (Ledger.Round PendingRecord.isEvent) a (inputs.map Input.pending) b ∧
      b.Quiet ∧ Tracks cfg s' (emitted ++ units) since' b := by
  induction inputs generalizing s emitted since a units with
  | nil =>
    cases hrun
    exact ⟨a, since, .nil a, hquiet, by rwa [List.append_nil]⟩
  | cons input rest ih =>
    obtain ⟨first, s₁, hfirst, hrun⟩ := run_bind_eq_ok.1 hrun
    obtain ⟨more, s₂, hmore, hrun⟩ := run_bind_eq_ok.1 hrun
    cases hrun
    have hfollows := h.follows_input input
    rw [hfirst] at hfollows
    obtain ⟨b, hround, h₁⟩ := hfollows
    have hround := hround.round hquiet
    obtain ⟨c, since', htrace, hc, h₂⟩ := ih h₁ (hround.quiet hquiet) hmore
    refine ⟨c, since', .cons hround htrace, hc, ?_⟩
    rwa [← List.append_assoc]

/-- A run of the ledger loses nothing. -/
theorem Ledger.balanced_of_trace {R : Type} {isEvent : R → Bool} {a b : Ledger R} {rs : List R}
    (h : Trace (Ledger.Round isEvent) a rs b) (ha : a.Balanced isEvent) :
    b.Balanced isEvent ∧ b.fed = a.fed ++ rs ∧ b.lossy = a.lossy := by
  induction h with
  | nil s => exact ⟨ha, (List.append_nil _).symm, rfl⟩
  | cons hround _ ih =>
    obtain ⟨hb, hfed, hlossy⟩ := ih (hround.balanced ha)
    refine ⟨hb, ?_, hlossy.trans hround.lossy_eq⟩
    rw [hfed, hround.fed_eq, List.append_assoc, List.singleton_append]

/-! ### Places -/

/-- The events in all the places the assembler knows. -/
def placed (units : List (CompleteUnit C V)) (s : Assembler C V) : List (PendingRecord C V) :=
  units.flatMap CompleteUnit.events ++ s.spillCalls.flatMap SpillCall.events ++
    (s.txn.map OpenTxn.events).getD [] ++ (s.chunk.map OpenChunk.events).getD [] ++
    s.deferredSnapshots

/-- Records up to their order and the fields the assembler writes. -/
def origins (records : List (PendingRecord C V)) : Multiset (PendingRecord C V) :=
  (records.map PendingRecord.origin : Multiset (PendingRecord C V))

@[simp] theorem origins_nil : origins ([] : List (PendingRecord C V)) = 0 := rfl

@[simp] theorem origins_append (l m : List (PendingRecord C V)) :
    origins (l ++ m) = origins l + origins m := by
  rw [origins, List.map_append, ← Multiset.coe_add]
  rfl

theorem origins_eq {l m : List (PendingRecord C V)}
    (h : (l : Multiset (PendingRecord C V)) = (m : Multiset (PendingRecord C V))) :
    origins l = origins m :=
  Multiset.coe_eq_coe.2 ((Multiset.coe_eq_coe.1 h).map _)

/-- What is held of a parcel is no more than its events. -/
theorem Holds.length_le {discard : Bool} {seq : Option ℕ} {spilled : ℕ}
    {events all : List (PendingRecord C V)} (h : Holds discard calls seq spilled events all) :
    events.length + spilled ≤ all.length := by
  unfold Holds at h
  split_ifs at h
  · obtain ⟨rfl, rfl, -⟩ := h
    exact Nat.zero_le _
  · have hlength := congrArg List.length h.1
    rw [List.length_map, List.length_map, List.length_append] at hlength
    have hspilled := h.2
    omega

/-- The events of a parcel are stored, but for those that are discarded. -/
theorem Holds.stored {discard : Bool} {seq : Option ℕ} {spilled : ℕ}
    {events all : List (PendingRecord C V)} (h : Holds discard calls seq spilled events all) :
    ∃ lost ⊆ all, (discard = false → lost = []) ∧
      origins events + origins (staged calls seq) + origins lost = origins all := by
  cases discard with
  | true =>
    obtain ⟨rfl, -, rfl⟩ := h
    exact ⟨all, List.Subset.refl _, fun hkeep => (by cases hkeep), by simp [staged]⟩
  | false =>
    refine ⟨[], List.nil_subset _, fun _ => rfl, ?_⟩
    rw [origins_nil, add_zero, add_comm, ← origins_append, origins, h.1]
    rfl

theorem forall₂_stored {parcels : List (Parcel (PendingRecord C V))}
    (h : List.Forall₂ (TracksUnit cfg calls) units parcels) :
    ∃ lost : List (PendingRecord C V), (∀ e ∈ lost, ∃ txnId, e.Counted txnId) ∧
      (cfg.discardStreaming = false → lost = []) ∧
      origins (units.flatMap CompleteUnit.events) +
        origins (units.flatMap fun u => staged calls u.spillUnitSeq) + origins lost =
      origins (parcels.flatMap Parcel.events) := by
  induction h with
  | nil => exact ⟨[], List.forall_mem_nil _, fun _ => rfl, rfl⟩
  | @cons u p us ps hup _ ih =>
    obtain ⟨lost, hcounted, hnone, hsum⟩ := ih
    obtain ⟨lost', hsub, hnone', hsum'⟩ := hup.held.stored
    refine ⟨lost' ++ lost, fun e he => ?_, fun hkeep => ?_, ?_⟩
    · rcases List.mem_append.1 he with he | he
      · have hkind : u.kind = .txn := by
          by_contra hkind
          rw [hnone' (by simp [hkind])] at he
          cases he
        exact (hup.streamed hkind e (hsub he)).imp fun _ hcount => hcount.2
      · exact hcounted e he
    · rw [hnone' (by simp [hkeep]), hnone hkeep, List.nil_append]
    · simp only [List.flatMap_cons, origins_append]
      rw [← hsum, ← hsum']
      abel

/-- The staged batches are those of the units. -/
theorem staged_units (calls : List (SpillCall C V)) (units : List (CompleteUnit C V)) :
    (units.flatMap fun u => staged calls u.spillUnitSeq) =
      (units.filterMap CompleteUnit.spillUnitSeq).flatMap fun q => staged calls (some q) := by
  induction units with
  | nil => rfl
  | cons u us ih =>
    rw [List.flatMap_cons, ih]
    cases hseq : u.spillUnitSeq with
    | none => simp [staged, hseq]
    | some q => simp [hseq]

theorem staged_toList (calls : List (SpillCall C V)) (seq : Option ℕ) :
    (seq.toList.flatMap fun q => staged calls (some q)) = staged calls seq := by
  cases seq <;> simp [staged]

/-- Every staged batch belongs to one unit. -/
theorem Tracks.origins_calls (h : Tracks cfg s units since a) (hl : a.lossy = false) :
    origins (s.spillCalls.flatMap SpillCall.events) =
      origins (units.flatMap fun u => staged s.spillCalls u.spillUnitSeq) +
        origins (staged s.spillCalls (s.txn.bind OpenTxn.spillUnitSeq)) +
        origins (staged s.spillCalls (s.chunk.bind OpenChunk.spillUnitSeq)) := by
  have hperm := flatMap_fibers SpillCall.unitSeq SpillCall.events h.seqs_nodup s.spillCalls
    (h.owned hl)
  rw [← origins_eq (Multiset.coe_eq_coe.2 hperm), seqs, List.flatMap_append, List.flatMap_append,
    origins_append, origins_append, staged_units, ← staged_toList _ (s.txn.bind _),
    ← staged_toList _ (s.chunk.bind _)]
  rfl

/-! ### Conservation -/

/-- What stands for the records a unit was given, in feed order: its batches and then its events
are the events among them, it has discarded none, and it retains them all, or exactly the last. A
unit that discards holds no event and counts them. -/
structure Stands (cfg : AssemblerConfig C V) (discard : Bool) (calls : List (SpillCall C V))
    (fed : List (PendingRecord C V)) (seq : Option ℕ) (spilled discarded : ℕ)
    (events records given : List (PendingRecord C V)) : Prop where
  order : given.Sublist fed
  events : if discard then events = [] ∧ spilled = 0 ∧ seq = none ∧
      discarded = (given.filter PendingRecord.isEvent).length
    else (staged calls seq ++ events).map PendingRecord.origin =
        (given.filter PendingRecord.isEvent).map PendingRecord.origin ∧
      spilled = (staged calls seq).length ∧ discarded = 0
  records : Keeps cfg records given

/-- **Nothing is lost or kept twice.** The ledger says which records each unit was given. -/
structure Conserved (cfg : AssemblerConfig C V) (fed : List (PendingRecord C V))
    (units : List (CompleteUnit C V)) (s : Assembler C V) (a : Ledger (PendingRecord C V)) :
    Prop where
  /-- Every event is in one place; an assembler that discards the stream drops events of
  transactions. -/
  events : ∃ discarded : List (PendingRecord C V),
    origins (placed units s) + origins discarded = origins (fed.filter PendingRecord.isEvent) ∧
      (cfg.discardStreaming = false → discarded = []) ∧
      ∀ e ∈ discarded, ∃ txnId, e.Counted txnId
  /-- Every batch was staged under the seq of one unit. -/
  seqs_nodup : (seqs units s).Nodup
  owned : ∀ call ∈ s.spillCalls, call.unitSeq ∈ seqs units s
  /-- Every record was given to one unit, or waits. -/
  records : a.heldRecords = (fed : Multiset (PendingRecord C V))
  deferred : a.deferred = s.deferredSnapshots
  /-- Every emitted unit stands for the records it was given. -/
  units : List.Forall₂ (fun u p => Stands cfg (u.kind = .txn && cfg.discardStreaming) s.spillCalls
    fed u.spillUnitSeq u.spilledEvents u.discardedEvents u.events u.records p.records) units a.units
  /-- So does what is open. -/
  txn : Option.Rel (fun t p => Stands cfg cfg.discardStreaming s.spillCalls fed t.spillUnitSeq
    t.spilled (t.count - t.events.length - t.spilled) t.events t.records p.records) s.txn a.txn
  chunk : Option.Rel (fun c p => Stands cfg false s.spillCalls fed c.spillUnitSeq c.spilled 0
    c.events c.records p.records) s.chunk a.chunk

/-- A parcel that is held stands for its records. -/
theorem Holds.stands {discard : Bool} {seq : Option ℕ} {spilled discarded : ℕ}
    {events records fed : List (PendingRecord C V)} {p : Parcel (PendingRecord C V)}
    (h : Holds discard calls seq spilled events p.events)
    (hcount : events.length + spilled + discarded = p.events.length)
    (hown : p.Own PendingRecord.isEvent) (horder : p.records.Sublist fed)
    (hkeeps : Keeps cfg records p.records) :
    Stands cfg discard calls fed seq spilled discarded events records p.records := by
  refine ⟨horder, ?_, hkeeps⟩
  rw [← hown]
  unfold Holds at h
  split_ifs at h ⊢ with hdiscard
  · obtain ⟨rfl, rfl, rfl⟩ := h
    refine ⟨rfl, rfl, rfl, ?_⟩
    simpa using hcount
  · refine ⟨h.1, h.2, ?_⟩
    have hlength := congrArg List.length h.1
    rw [List.length_map, List.length_map, List.length_append] at hlength
    have hspilled := h.2
    omega

namespace Tracks

/-- What is stored of the open transaction. -/
private theorem stored_txn (h : Tracks cfg s units since a) :
    ∃ lost : List (PendingRecord C V), (∀ e ∈ lost, ∃ txnId, e.Counted txnId) ∧
      (cfg.discardStreaming = false → lost = []) ∧
      origins ((s.txn.map OpenTxn.events).getD []) +
        origins (staged s.spillCalls (s.txn.bind OpenTxn.spillUnitSeq)) + origins lost =
      origins (Ledger.eventsOf a.txn) := by
  cases ht : s.txn with
  | none => exact ⟨[], List.forall_mem_nil _, fun _ => rfl, by simp [h.txn_eq_none.1 ht, staged]⟩
  | some t =>
    obtain ⟨p, hp, htracks⟩ := h.exists_txn ht
    obtain ⟨lost, hsub, hnone, hsum⟩ := htracks.held.stored
    refine ⟨lost, fun e he => ⟨_, htracks.counted e (hsub he)⟩, hnone, ?_⟩
    rw [hp]
    exact hsum

/-- What is stored of the open chunk. -/
private theorem stored_chunk (h : Tracks cfg s units since a) :
    origins ((s.chunk.map OpenChunk.events).getD []) +
        origins (staged s.spillCalls (s.chunk.bind OpenChunk.spillUnitSeq)) =
      origins (Ledger.eventsOf a.chunk) := by
  cases hc : s.chunk with
  | none => simp [h.chunk_eq_none.1 hc, staged]
  | some c =>
    obtain ⟨p, hp, htracks⟩ := h.exists_chunk hc
    obtain ⟨lost, -, hnone, hsum⟩ := htracks.held.stored
    rw [hnone rfl, origins_nil, add_zero] at hsum
    rw [hp]
    exact hsum

theorem conserved (h : Tracks cfg s units since a) (hl : a.lossy = false)
    (hbalanced : a.Balanced PendingRecord.isEvent) : Conserved cfg a.fed units s a := by
  refine ⟨?_, h.seqs_nodup, h.owned hl, hbalanced.records, h.deferred.eq.symm, ?_, ?_, ?_⟩
  · obtain ⟨lost, hcounted, hnone, hsum⟩ := forall₂_stored h.units
    obtain ⟨lost', hcounted', hnone', hsum'⟩ := h.stored_txn
    refine ⟨lost ++ lost', ?_, fun hkeep => by rw [hnone hkeep, hnone' hkeep, List.nil_append],
      fun e he => (List.mem_append.1 he).elim (hcounted e) (hcounted' e)⟩
    have hevents : origins (a.units.flatMap Parcel.events ++ Ledger.eventsOf a.txn ++
        Ledger.eventsOf a.chunk ++ a.deferred) = origins (a.fed.filter PendingRecord.isEvent) :=
      origins_eq hbalanced.events
    rw [← hevents]
    simp only [placed, origins_append, h.origins_calls hl, ← hsum, ← hsum', ← h.stored_chunk,
      h.deferred.eq]
    abel
  · refine List.forall₂_iff_get.2 ⟨h.units.length_eq, fun i hi hi' => ?_⟩
    have hup := (List.forall₂_iff_get.1 h.units).2 i hi hi'
    have hp : a.units.get ⟨i, hi'⟩ ∈ a.units := List.get_mem _ _
    exact hup.held.stands hup.count (hbalanced.units_own _ hp) (hbalanced.units_order _ hp)
      hup.records
  · cases ht : s.txn with
    | none =>
      rw [h.txn_eq_none.1 ht]
      exact .none
    | some t =>
      obtain ⟨p, hp, htracks⟩ := h.exists_txn ht
      have horder := hbalanced.txn_order
      rw [hp] at horder ⊢
      have hcount : t.events.length + t.spilled + (t.count - t.events.length - t.spilled) =
          p.events.length := by
        have hle := htracks.held.length_le
        have hcount := htracks.count
        omega
      exact .some (htracks.held.stands hcount (hbalanced.txn_own p hp) horder htracks.records)
  · cases hc : s.chunk with
    | none =>
      rw [h.chunk_eq_none.1 hc]
      exact .none
    | some c =>
      obtain ⟨p, hp, htracks⟩ := h.exists_chunk hc
      have horder := (List.sublist_append_left _ _).trans hbalanced.chunk_order
      rw [hp] at horder ⊢
      have hheld := htracks.held
      simp only [Holds, Bool.false_eq_true, if_false] at hheld
      have hcount : c.events.length + c.spilled + 0 = p.events.length := by
        have hlength := congrArg List.length hheld.1
        rw [List.length_map, List.length_map, List.length_append] at hlength
        omega
      exact .some (htracks.held.stands hcount (hbalanced.chunk_own p hp) horder htracks.records)

end Tracks

/-- **An accepted feed conserves events and records**: any mix of records, any chunk and spill
thresholds. -/
theorem feedAll_conserves (cfg : AssemblerConfig C V) (inputs : List (Input C V))
    (hrun : (feedAll cfg inputs).run {} = .ok units s) :
    ∃ a, Conserved cfg (inputs.map Input.pending) units s a := by
  obtain ⟨a, since, htrace, -, htracks⟩ :=
    (Tracks.init cfg).feedAll Ledger.Quiet.init hrun
  obtain ⟨hbalanced, hfed, hlossy⟩ := Ledger.balanced_of_trace htrace Ledger.Balanced.init
  have hconserved := htracks.conserved hlossy hbalanced
  rw [hfed] at hconserved
  exact ⟨a, hconserved⟩

namespace Accounts

/-- A row of an incremental snapshot. -/
def backfills : PendingRecord Column String :=
  { kind := .snapshot
    snapshot := some .incremental
    incremental := true
    schema := some "public"
    table := some "accounts" }

/-- An assembler that spills every second event and admits incremental snapshots. -/
def backfilling : AssemblerConfig Column String :=
  { onSpill := some fun _ => none, spillEvents := 2, incrementalEnabled := true }

/-- A row of an incremental snapshot arrives in the middle of a transaction. -/
def interleaved : List (Input Column String) :=
  [begins "7", changes "7" 1, changes "7" 2, backfills, changes "7" 3, ends "7" 3].map .record

/-- Whether a program returns. -/
def returns {C V α : Type} (m : Assemble C V α) (s : Assembler C V) : Bool :=
  match m.run s with
  | .ok _ _ => true
  | .error _ _ => false

theorem exists_of_returns {C V α : Type} {m : Assemble C V α} {s : Assembler C V}
    (h : returns m s = true) : ∃ x s', m.run s = .ok x s' := by
  unfold returns at h
  split at h
  case h_1 x s' hrun => exact ⟨x, s', hrun⟩
  case h_2 => cases h

theorem interleaved_conserved : ∃ units s,
    (feedAll backfilling interleaved).run {} = .ok units s ∧
      ∃ a, Conserved backfilling (interleaved.map Input.pending) units s a := by
  obtain ⟨units, s, hrun⟩ := exists_of_returns (m := feedAll backfilling interleaved) (s := {})
    (by rfl)
  exact ⟨units, s, hrun, feedAll_conserves backfilling interleaved hrun⟩

/-- An assembler that discards the stream. -/
def discarding : AssemblerConfig Column String := { discardStreaming := true }

theorem discarded_not_placed : ∃ units s,
    (feedAll discarding ([begins "7", changes "7" 1].map .record)).run {} = .ok units s ∧
      origins (placed units s) ≠
        origins ([begins "7", changes "7" 1].filter PendingRecord.isEvent) := by
  refine ⟨_, _, rfl, fun heq => ?_⟩
  have hcard := congrArg Multiset.card heq
  revert hcard
  decide

end Accounts

end CdcFlight
