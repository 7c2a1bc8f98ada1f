import CdcFlight.Assembler.Feed
import CdcFlight.Assembler.Ledger

/-!
# The assembler keeps a ledger

The state of the assembler against the ledger of what it was fed. The events of a unit are the
batches staged under its seq followed by those in memory, up to the fields the assembler itself
writes; the retained records are all of the parcel's records or the last of them. The counters of
the open transaction are those of its parcel.

The relation holds after every record, whether the assembler raised on it or not.

## Main definitions

* `CdcFlight.PendingRecord.origin`: a record without the fields the assembler writes.
* `CdcFlight.Keeps`, `CdcFlight.Holds`: how a unit stores a parcel.
* `CdcFlight.Tracks`: the relation between assembler and ledger.

## Main results

* `CdcFlight.Tracks.spillTxn`, `CdcFlight.Tracks.spillChunk`: spilling changes the storage only.
* `CdcFlight.Tracks.close`, `CdcFlight.Tracks.enterChunk`, `CdcFlight.Tracks.setTxn`,
  `CdcFlight.Tracks.complete`, `CdcFlight.Tracks.single`: what a record may do.
-/

namespace CdcFlight

open Lib

variable {C V : Type}

namespace PendingRecord

/-- A record without the fields the assembler writes. -/
def origin (e : PendingRecord C V) : PendingRecord C V :=
  { e with messageTransactional := none, commitLsn := none, snapshotOrdinal := none }

/-- A record that a unit materializes. -/
def isEvent (e : PendingRecord C V) : Bool :=
  e.kind = .data || e.kind = .truncate || e.kind = .message || e.kind = .snapshot

/-- The ordinal of an event within its transaction. -/
def ordinal (e : PendingRecord C V) : ℤ :=
  match e.totalOrder with
  | some (.int n) => n
  | _ => 0

/-- An event of the transaction that takes an ordinal. -/
structure Counted (txnId : String) (e : PendingRecord C V) : Prop where
  txnId : e.txnId = some txnId
  kind : e.kind = .data ∨ e.kind = .truncate ∨ e.kind = .message
  order : e.totalOrder = some (.int e.ordinal)
  one_le : 1 ≤ e.ordinal

/-- A data event of a named table. -/
def onTable (table : String) (e : PendingRecord C V) : Bool :=
  e.kind ≠ .message && truthy e.qualifiedTable && e.ordinalKey = table

end PendingRecord

/-- How many data events a table has, when it has any. -/
def observed (events : List (PendingRecord C V)) (table : String) : Option ℕ :=
  match events.countP (PendingRecord.onTable table) with
  | 0 => none
  | n + 1 => some (n + 1)

/-- The events staged under a seq, in the order they were handed over. -/
def staged (calls : List (SpillCall C V)) : Option ℕ → List (PendingRecord C V)
  | none => []
  | some seq => (calls.filter (·.unitSeq = seq)).flatMap SpillCall.events

/-- The acknowledgement list of a parcel: all its records, or the last of them. -/
def Keeps (cfg : AssemblerConfig C V) (records all : List (PendingRecord C V)) : Prop :=
  records.map PendingRecord.origin =
    (if cfg.keepAllRecords then all else all.getLast?.toList).map PendingRecord.origin

/-- The events of a parcel are staged and in memory, in this order; or they are discarded. -/
def Holds (discard : Bool) (calls : List (SpillCall C V)) (seq : Option ℕ) (spilled : ℕ)
    (events all : List (PendingRecord C V)) : Prop :=
  if discard then events = [] ∧ spilled = 0 ∧ seq = none
  else (staged calls seq ++ events).map PendingRecord.origin = all.map PendingRecord.origin ∧
    spilled = (staged calls seq).length

/-- The open transaction stores its parcel. -/
structure TracksTxn (cfg : AssemblerConfig C V) (calls : List (SpillCall C V))
    (since : List (PendingRecord C V)) (t : OpenTxn C V) (p : Parcel (PendingRecord C V)) :
    Prop where
  since : p.events.Sublist since
  counted : ∀ e ∈ p.events, e.Counted t.txnId
  nodup : (p.events.map PendingRecord.ordinal).Nodup
  orders : t.orders = (p.events.map PendingRecord.ordinal).toFinset
  count : t.count = p.events.length
  perTable : ∀ table, t.perTable.get? table = observed p.events table
  held : Holds cfg.discardStreaming calls t.spillUnitSeq t.spilled t.events p.events
  records : Keeps cfg t.records p.records

/-- The open chunk stores its parcel. -/
structure TracksChunk (cfg : AssemblerConfig C V) (calls : List (SpillCall C V))
    (c : OpenChunk C V) (p : Parcel (PendingRecord C V)) : Prop where
  held : Holds false calls c.spillUnitSeq c.spilled c.events p.events
  records : Keeps cfg c.records p.records

/-- An emitted unit stores its parcel. -/
structure TracksUnit (cfg : AssemblerConfig C V) (calls : List (SpillCall C V))
    (u : CompleteUnit C V) (p : Parcel (PendingRecord C V)) : Prop where
  held : Holds (u.kind = .txn && cfg.discardStreaming) calls u.spillUnitSeq u.spilledEvents
    u.events p.events
  count : u.eventCount = p.events.length
  records : Keeps cfg u.records p.records
  streamed : u.kind = .txn → ∀ e ∈ p.events, ∃ txnId, u.txnId = some txnId ∧ e.Counted txnId

/-- The queue of waiting rows. -/
structure Waits (queue deferred : List (PendingRecord C V)) : Prop where
  eq : queue = deferred
  rows : ∀ e ∈ deferred, e.kind = .snapshot

/-- The seqs under which events are staged: one for each unit that spilled. -/
def seqs (emitted : List (CompleteUnit C V)) (s : Assembler C V) : List ℕ :=
  emitted.filterMap CompleteUnit.spillUnitSeq ++ (s.txn.bind OpenTxn.spillUnitSeq).toList ++
    (s.chunk.bind OpenChunk.spillUnitSeq).toList

/-- **The assembler keeps the ledger.** -/
structure Tracks (cfg : AssemblerConfig C V) (s : Assembler C V)
    (emitted : List (CompleteUnit C V)) (since : List (PendingRecord C V))
    (a : Ledger (PendingRecord C V)) : Prop where
  txn : Option.Rel (TracksTxn cfg s.spillCalls since) s.txn a.txn
  chunk : Option.Rel (TracksChunk cfg s.spillCalls) s.chunk a.chunk
  deferred : Waits s.deferredSnapshots a.deferred
  exclusive : s.txn.isSome → s.chunk = none
  units : List.Forall₂ (TracksUnit cfg s.spillCalls) emitted a.units
  seqs_nodup : (seqs emitted s).Nodup
  seqs_le : ∀ q ∈ seqs emitted s, q ≤ s.spillUnitSeq
  calls_le : ∀ c ∈ s.spillCalls, c.unitSeq ≤ s.spillUnitSeq
  /-- Every staged batch is one of a unit that is still there. -/
  owned : a.lossy = false → ∀ c ∈ s.spillCalls, c.unitSeq ∈ seqs emitted s

variable {cfg : AssemblerConfig C V} {s s' : Assembler C V} {emitted : List (CompleteUnit C V)}
  {since : List (PendingRecord C V)} {a b : Ledger (PendingRecord C V)}
  {calls : List (SpillCall C V)} {rec : PendingRecord C V}

/-! ### Records -/

theorem Keeps.retain {records all : List (PendingRecord C V)} (h : Keeps cfg records all)
    {r r' : PendingRecord C V} (hr : r.origin = r'.origin) :
    Keeps cfg (cfg.retain records r) (all ++ [r']) := by
  unfold Keeps AssemblerConfig.retain at *
  by_cases hkeep : cfg.keepAllRecords = true
  · simpa [hkeep, hr] using h
  · simp [hkeep, hr]

theorem keeps_nil : Keeps cfg [] ([] : List (PendingRecord C V)) := by
  unfold Keeps
  split_ifs <;> rfl

theorem keeps_singleton {r r' : PendingRecord C V} (hr : r.origin = r'.origin) :
    Keeps cfg [r] [r'] := by
  unfold Keeps
  split_ifs <;> simp [hr]

/-! ### Staged events -/

theorem staged_append (calls : List (SpillCall C V)) (c : SpillCall C V) (seq : Option ℕ) :
    staged (calls ++ [c]) seq =
      staged calls seq ++ if seq = some c.unitSeq then c.events else [] := by
  cases seq with
  | none => simp [staged]
  | some q =>
    by_cases hq : c.unitSeq = q
    · subst hq
      simp [staged]
    · simp [staged, hq, Ne.symm hq]

/-- Nothing is staged under a seq beyond those handed out. -/
theorem staged_eq_nil (h : ∀ c ∈ calls, c.unitSeq ≤ s.spillUnitSeq) {q : ℕ}
    (hq : s.spillUnitSeq < q) : staged calls (some q) = [] := by
  simp only [staged, List.flatMap_eq_nil_iff, List.mem_filter, decide_eq_true_eq, and_imp]
  intro c hc hcq
  have := h c hc
  omega

theorem Holds.noteCall {discard : Bool} {seq : Option ℕ} {spilled : ℕ}
    {events all : List (PendingRecord C V)} (h : Holds discard calls seq spilled events all)
    {c : SpillCall C V} (hc : seq ≠ some c.unitSeq) :
    Holds discard (calls ++ [c]) seq spilled events all := by
  unfold Holds at *
  rw [staged_append, if_neg hc, List.append_nil]
  exact h

/-- An event is kept in memory. -/
theorem Holds.push {seq : Option ℕ} {spilled : ℕ} {events all : List (PendingRecord C V)}
    (h : Holds false calls seq spilled events all) {r r' : PendingRecord C V}
    (hr : r.origin = r'.origin) :
    Holds false calls seq spilled (events ++ [r]) (all ++ [r']) := by
  simp only [Holds, Bool.false_eq_true, if_false] at h ⊢
  refine ⟨?_, h.2⟩
  rw [← List.append_assoc, List.map_append, h.1, List.map_append, List.map_singleton, hr,
    List.map_singleton]

/-- The events in memory move behind the staged ones. -/
theorem Holds.stage {seq : Option ℕ} {spilled : ℕ} {events all : List (PendingRecord C V)}
    (h : Holds false calls seq spilled events all)
    (hcalls : ∀ c ∈ calls, c.unitSeq ≤ s.spillUnitSeq)
    (snapshot : Option (Option String × Option String)) :
    Holds false (calls ++ [⟨s.seqFor seq, events, snapshot⟩]) (some (s.seqFor seq))
      (spilled + events.length) [] all := by
  have hstaged : staged calls (some (s.seqFor seq)) = staged calls seq := by
    cases seq with
    | none => exact staged_eq_nil hcalls (Nat.lt_succ_self _)
    | some q => rfl
  simp only [Holds, Bool.false_eq_true, if_false] at h ⊢
  rw [staged_append, if_pos rfl, hstaged, List.append_nil]
  exact ⟨h.1, by rw [List.length_append, h.2]⟩

/-! ### Spilling -/

/-- The seq a unit spills under joins the seqs in use. -/
private theorem nodup_seqFor {l r : List ℕ} {own : Option ℕ} {n : ℕ}
    (hnodup : (l ++ own.toList ++ r).Nodup) (hle : ∀ q ∈ l ++ own.toList ++ r, q ≤ n) :
    (l ++ [own.getD (n + 1)] ++ r).Nodup ∧
      ∀ q ∈ l ++ [own.getD (n + 1)] ++ r, q ≤ if own.isNone then n + 1 else n := by
  cases own with
  | some q => exact ⟨hnodup, hle⟩
  | none =>
    simp only [Option.toList_none, List.append_nil, Option.getD_none, Option.isNone_none,
      if_true] at hnodup hle ⊢
    have hfresh (q : ℕ) (hq : q ∈ l ++ r) : q < n + 1 := Nat.lt_succ_of_le (hle q hq)
    constructor
    · rw [List.append_assoc, List.singleton_append, List.nodup_middle]
      exact List.nodup_cons.2 ⟨fun hmem => (hfresh _ hmem).ne rfl, hnodup⟩
    · intro q hq
      simp only [List.append_assoc, List.singleton_append, List.mem_append, List.mem_cons] at hq
      rcases hq with hq | rfl | hq
      · exact (hfresh q (List.mem_append_left _ hq)).le
      · exact le_rfl
      · exact (hfresh q (List.mem_append_right _ hq)).le

private theorem mem_seqFor {l : List ℕ} {own : Option ℕ} {q n : ℕ} (h : q ∈ l ++ own.toList) :
    q ∈ l ++ [own.getD (n + 1)] := by
  cases own with
  | some _ => exact h
  | none =>
    rw [Option.toList_none, List.append_nil] at h
    exact List.mem_append_left _ h

theorem maybeSpillTxn_cases (cfg : AssemblerConfig C V) (s : Assembler C V) :
    (maybeSpillTxn cfg).run s = .ok () s ∨ ∃ t, s.txn = some t ∧
      ((maybeSpillTxn cfg).run s = .ok () (((s.reserveSeq t.spillUnitSeq).noteCall
          ⟨s.seqFor t.spillUnitSeq, t.events, none⟩).setTxn
            (some (t.staged (s.seqFor t.spillUnitSeq)))) ∨
        ∃ refusal, (maybeSpillTxn cfg).run s = .error refusal ((s.reserveSeq t.spillUnitSeq).setTxn
          (some { t with spillUnitSeq := some (s.seqFor t.spillUnitSeq) }))) := by
  unfold maybeSpillTxn
  simp only [EStateM.run_bind, EStateM.run_get]
  cases hcall : cfg.onSpill with
  | none => exact Or.inl rfl
  | some onSpill =>
    cases htxn : s.txn with
    | none => exact Or.inl rfl
    | some t =>
      dsimp only
      split_ifs with hover
      · refine Or.inr ⟨t, rfl, ?_⟩
        cases hspill : onSpill ⟨s.seqFor t.spillUnitSeq, t.events, none⟩ with
        | none => exact Or.inl rfl
        | some refusal => exact Or.inr ⟨refusal, rfl⟩
      · exact Or.inl rfl

theorem maybeSpillChunk_cases (cfg : AssemblerConfig C V) (s : Assembler C V) :
    (maybeSpillChunk cfg).run s = .ok () s ∨ ∃ c, s.chunk = some c ∧
      ((maybeSpillChunk cfg).run s = .ok () (((s.reserveSeq c.spillUnitSeq).noteCall
          ⟨s.seqFor c.spillUnitSeq, c.events, some (c.schema, c.table)⟩).setChunk
            (some (c.staged (s.seqFor c.spillUnitSeq)))) ∨
        ∃ refusal, (maybeSpillChunk cfg).run s = .error refusal
          ((s.reserveSeq c.spillUnitSeq).setChunk
            (some { c with spillUnitSeq := some (s.seqFor c.spillUnitSeq) }))) := by
  unfold maybeSpillChunk
  simp only [EStateM.run_bind, EStateM.run_get]
  cases hcall : cfg.onSpill with
  | none => exact Or.inl rfl
  | some onSpill =>
    cases hchunk : s.chunk with
    | none => exact Or.inl rfl
    | some c =>
      dsimp only
      split_ifs with hover
      · refine Or.inr ⟨c, rfl, ?_⟩
        cases hspill : onSpill ⟨s.seqFor c.spillUnitSeq, c.events, some (c.schema, c.table)⟩ with
        | none => exact Or.inl rfl
        | some refusal => exact Or.inr ⟨refusal, rfl⟩
      · exact Or.inl rfl

private theorem units_noteCall {units : List (Parcel (PendingRecord C V))} {c : SpillCall C V}
    (h : List.Forall₂ (TracksUnit cfg calls) emitted units)
    (hc : c.unitSeq ∉ emitted.filterMap CompleteUnit.spillUnitSeq) :
    List.Forall₂ (TracksUnit cfg (calls ++ [c])) emitted units := by
  have hne : ∀ u ∈ emitted, u.spillUnitSeq ≠ some c.unitSeq :=
    fun u hu heq => hc (List.mem_filterMap.2 ⟨u, hu, heq⟩)
  refine ((List.forall₂_and_left emitted units).2 ⟨hne, h⟩).imp fun u p hup => ?_
  exact ⟨hup.2.held.noteCall hup.1, hup.2.count, hup.2.records, hup.2.streamed⟩

private theorem calls_le_append {c : SpillCall C V} {n m : ℕ} (h : ∀ c ∈ calls, c.unitSeq ≤ n)
    (hnm : n ≤ m) (hc : c.unitSeq ≤ m) : ∀ c' ∈ calls ++ [c], c'.unitSeq ≤ m := by
  intro c' hc'
  rcases List.mem_append.1 hc' with hc' | hc'
  · exact (h c' hc').trans hnm
  · rw [List.mem_singleton.1 hc']
    exact hc

private theorem le_reserveSeq (s : Assembler C V) (own : Option ℕ) :
    s.spillUnitSeq ≤ (s.reserveSeq own).spillUnitSeq := by
  simp only [Assembler.reserveSeq]
  split_ifs
  · exact Nat.le_succ _
  · exact le_rfl

namespace Tracks

private theorem notMem_of_nodup_concat {l : List ℕ} {q : ℕ} (h : (l ++ [q]).Nodup) : q ∉ l :=
  fun hq => List.disjoint_of_nodup_append h hq (List.mem_singleton_self q)

theorem exists_txn (h : Tracks cfg s emitted since a) {t : OpenTxn C V} (ht : s.txn = some t) :
    ∃ p, a.txn = some p ∧ TracksTxn cfg s.spillCalls since t p := by
  have htracks := h.txn
  rw [ht] at htracks
  cases ha : a.txn with
  | none =>
    rw [ha] at htracks
    cases htracks
  | some p =>
    rw [ha] at htracks
    cases htracks with
    | some htracks => exact ⟨p, rfl, htracks⟩

theorem exists_chunk (h : Tracks cfg s emitted since a) {c : OpenChunk C V}
    (hc : s.chunk = some c) : ∃ p, a.chunk = some p ∧ TracksChunk cfg s.spillCalls c p := by
  have htracks := h.chunk
  rw [hc] at htracks
  cases ha : a.chunk with
  | none =>
    rw [ha] at htracks
    cases htracks
  | some p =>
    rw [ha] at htracks
    cases htracks with
    | some htracks => exact ⟨p, rfl, htracks⟩

theorem txn_eq_none (h : Tracks cfg s emitted since a) : s.txn = none ↔ a.txn = none := by
  have htracks := h.txn
  cases hs : s.txn <;> cases ha : a.txn <;> rw [hs, ha] at htracks <;> cases htracks <;> simp

theorem chunk_eq_none (h : Tracks cfg s emitted since a) : s.chunk = none ↔ a.chunk = none := by
  have htracks := h.chunk
  cases hs : s.chunk <;> cases ha : a.chunk <;> rw [hs, ha] at htracks <;> cases htracks <;> simp

theorem txn_of_chunk (h : Tracks cfg s emitted since a) {c : OpenChunk C V}
    (hc : s.chunk = some c) : s.txn = none := by
  by_contra hsome
  have hnone := h.exclusive (Option.isSome_iff_ne_none.2 hsome)
  rw [hc] at hnone
  cases hnone

/-- What the seq of a transaction that is about to spill is worth. -/
private theorem seqs_txn (h : Tracks cfg s emitted since a) {t : OpenTxn C V}
    (ht : s.txn = some t) :
    (emitted.filterMap CompleteUnit.spillUnitSeq ++ [s.seqFor t.spillUnitSeq]).Nodup ∧
      ∀ q ∈ emitted.filterMap CompleteUnit.spillUnitSeq ++ [s.seqFor t.spillUnitSeq],
        q ≤ (s.reserveSeq t.spillUnitSeq).spillUnitSeq := by
  have hchunk := h.exclusive (by simp [ht])
  have hnodup := h.seqs_nodup
  have hle := h.seqs_le
  simp only [seqs, ht, hchunk, Option.bind_some, Option.bind_none] at hnodup hle
  have := nodup_seqFor hnodup hle
  rwa [Option.toList_none, List.append_nil] at this

private theorem seqs_chunk (h : Tracks cfg s emitted since a) {c : OpenChunk C V}
    (hc : s.chunk = some c) :
    (emitted.filterMap CompleteUnit.spillUnitSeq ++ [s.seqFor c.spillUnitSeq]).Nodup ∧
      ∀ q ∈ emitted.filterMap CompleteUnit.spillUnitSeq ++ [s.seqFor c.spillUnitSeq],
        q ≤ (s.reserveSeq c.spillUnitSeq).spillUnitSeq := by
  have htxn := h.txn_of_chunk hc
  have hnodup := h.seqs_nodup
  have hle := h.seqs_le
  simp only [seqs, htxn, hc, Option.bind_some, Option.bind_none, Option.toList_none,
    List.append_nil] at hnodup hle
  have := nodup_seqFor (r := []) (by simpa using hnodup) (by simpa using hle)
  rwa [List.append_nil] at this

private theorem owned_txn (h : Tracks cfg s emitted since a) {t : OpenTxn C V}
    (ht : s.txn = some t) (hl : a.lossy = false) {c : SpillCall C V} (hc : c ∈ s.spillCalls) :
    c.unitSeq ∈ emitted.filterMap CompleteUnit.spillUnitSeq ++ [s.seqFor t.spillUnitSeq] := by
  have hchunk := h.exclusive (by simp [ht])
  have hown := h.owned hl c hc
  simp only [seqs, ht, hchunk, Option.bind_some, Option.bind_none, Option.toList_none,
    List.append_nil] at hown
  exact mem_seqFor hown

private theorem owned_chunk (h : Tracks cfg s emitted since a) {c : OpenChunk C V}
    (hc : s.chunk = some c) (hl : a.lossy = false) {call : SpillCall C V}
    (hcall : call ∈ s.spillCalls) :
    call.unitSeq ∈ emitted.filterMap CompleteUnit.spillUnitSeq ++ [s.seqFor c.spillUnitSeq] := by
  have hown := h.owned hl call hcall
  simp only [seqs, h.txn_of_chunk hc, hc, Option.bind_some, Option.bind_none, Option.toList_none,
    List.append_nil] at hown
  exact mem_seqFor hown

/-- What a unit that is about to spill has staged does not change with its seq. -/
private theorem staged_seqFor (h : Tracks cfg s emitted since a) (own : Option ℕ) :
    staged s.spillCalls (some (s.seqFor own)) = staged s.spillCalls own := by
  cases own with
  | none => exact staged_eq_nil h.calls_le (Nat.lt_succ_self _)
  | some q => rfl

/-- **Spilling changes the storage of a transaction only.** -/
theorem spillTxn (h : Tracks cfg s emitted since a) (hkeep : cfg.discardStreaming = false)
    {t : OpenTxn C V} (ht : s.txn = some t) :
    Tracks cfg ((s.reserveSeq t.spillUnitSeq).setTxn
        (some { t with spillUnitSeq := some (s.seqFor t.spillUnitSeq) })) emitted since a ∧
      Tracks cfg (((s.reserveSeq t.spillUnitSeq).noteCall
        ⟨s.seqFor t.spillUnitSeq, t.events, none⟩).setTxn
          (some (t.staged (s.seqFor t.spillUnitSeq)))) emitted since a := by
  obtain ⟨hnodup, hle⟩ := h.seqs_txn ht
  have hchunk := h.exclusive (by simp [ht])
  have hachunk := h.chunk_eq_none.1 hchunk
  obtain ⟨p, hp, htracks⟩ := h.exists_txn ht
  have hheld := htracks.held
  rw [hkeep] at hheld
  constructor
  · refine ⟨?_, h.chunk, h.deferred, fun _ => hchunk, h.units, ?_, ?_,
      fun c hc => (h.calls_le c hc).trans (le_reserveSeq s _), fun hl c hc => ?_⟩
    · rw [hp]
      refine .some ⟨htracks.since, htracks.counted, htracks.nodup, htracks.orders, htracks.count,
        htracks.perTable, ?_, htracks.records⟩
      rw [hkeep]
      simpa [Holds, Assembler.reserveSeq, Assembler.setTxn, h.staged_seqFor] using hheld
    · simpa [seqs, Assembler.setTxn, Assembler.reserveSeq, hchunk] using hnodup
    · intro q hq
      refine hle q ?_
      simpa [seqs, Assembler.setTxn, Assembler.reserveSeq, hchunk] using hq
    · have hown := h.owned_txn ht hl hc
      simpa [seqs, Assembler.setTxn, Assembler.reserveSeq, hchunk] using hown
  · refine ⟨?_, ?_, h.deferred, fun _ => hchunk,
      units_noteCall h.units (notMem_of_nodup_concat hnodup), ?_, ?_,
      calls_le_append h.calls_le (le_reserveSeq s _) (hle _ (by simp)), fun hl c hc => ?_⟩
    · rw [hp]
      refine .some ⟨htracks.since, htracks.counted, htracks.nodup, htracks.orders, htracks.count,
        htracks.perTable, ?_, htracks.records⟩
      rw [hkeep]
      exact hheld.stage h.calls_le none
    · rw [hachunk, show (((s.reserveSeq t.spillUnitSeq).noteCall _).setTxn _).chunk = none from
        hchunk]
      exact .none
    · simpa [seqs, Assembler.setTxn, Assembler.noteCall, Assembler.reserveSeq, hchunk,
        OpenTxn.staged] using hnodup
    · intro q hq
      refine hle q ?_
      simpa [seqs, Assembler.setTxn, Assembler.noteCall, Assembler.reserveSeq, hchunk,
        OpenTxn.staged] using hq
    · have hown : c.unitSeq ∈ emitted.filterMap CompleteUnit.spillUnitSeq ++
          [s.seqFor t.spillUnitSeq] := by
        rcases List.mem_append.1 hc with hc | hc
        · exact h.owned_txn ht hl hc
        · rw [List.mem_singleton.1 hc]
          exact List.mem_append_right _ (List.mem_singleton_self _)
      simpa [seqs, Assembler.setTxn, Assembler.noteCall, Assembler.reserveSeq, hchunk,
        OpenTxn.staged] using hown

/-- **Spilling changes the storage of a chunk only.** -/
theorem spillChunk (h : Tracks cfg s emitted since a) {c : OpenChunk C V}
    (hc : s.chunk = some c) :
    Tracks cfg ((s.reserveSeq c.spillUnitSeq).setChunk
        (some { c with spillUnitSeq := some (s.seqFor c.spillUnitSeq) })) emitted since a ∧
      Tracks cfg (((s.reserveSeq c.spillUnitSeq).noteCall
        ⟨s.seqFor c.spillUnitSeq, c.events, some (c.schema, c.table)⟩).setChunk
          (some (c.staged (s.seqFor c.spillUnitSeq)))) emitted since a := by
  obtain ⟨hnodup, hle⟩ := h.seqs_chunk hc
  have htxn := h.txn_of_chunk hc
  have hatxn := h.txn_eq_none.1 htxn
  obtain ⟨p, hp, htracks⟩ := h.exists_chunk hc
  have hheld := htracks.held
  constructor
  · refine ⟨h.txn, ?_, h.deferred, fun hsome => ?_, h.units, ?_, ?_,
      fun c hc => (h.calls_le c hc).trans (le_reserveSeq s _), fun hl call hcall => ?_⟩
    · rw [hp]
      refine .some ⟨?_, htracks.records⟩
      simpa [Holds, Assembler.reserveSeq, Assembler.setChunk, h.staged_seqFor] using hheld
    · rw [show ((s.reserveSeq c.spillUnitSeq).setChunk _).txn = none from htxn] at hsome
      cases hsome
    · simpa [seqs, Assembler.setChunk, Assembler.reserveSeq, htxn] using hnodup
    · intro q hq
      refine hle q ?_
      simpa [seqs, Assembler.setChunk, Assembler.reserveSeq, htxn] using hq
    · have hown := h.owned_chunk hc hl hcall
      simpa [seqs, Assembler.setChunk, Assembler.reserveSeq, htxn] using hown
  · refine ⟨?_, ?_, h.deferred, fun hsome => ?_,
      units_noteCall h.units (notMem_of_nodup_concat hnodup), ?_, ?_,
      calls_le_append h.calls_le (le_reserveSeq s _) (hle _ (by simp)), fun hl call hcall => ?_⟩
    · rw [hatxn, show (((s.reserveSeq c.spillUnitSeq).noteCall _).setChunk _).txn = none from
        htxn]
      exact .none
    · rw [hp]
      exact .some ⟨hheld.stage h.calls_le _, htracks.records⟩
    · rw [show (((s.reserveSeq c.spillUnitSeq).noteCall _).setChunk _).txn = none from htxn]
        at hsome
      cases hsome
    · simpa [seqs, Assembler.setChunk, Assembler.noteCall, Assembler.reserveSeq, htxn,
        OpenChunk.staged] using hnodup
    · intro q hq
      refine hle q ?_
      simpa [seqs, Assembler.setChunk, Assembler.noteCall, Assembler.reserveSeq, htxn,
        OpenChunk.staged] using hq
    · have hown : call.unitSeq ∈ emitted.filterMap CompleteUnit.spillUnitSeq ++
          [s.seqFor c.spillUnitSeq] := by
        rcases List.mem_append.1 hcall with hcall | hcall
        · exact h.owned_chunk hc hl hcall
        · rw [List.mem_singleton.1 hcall]
          exact List.mem_append_right _ (List.mem_singleton_self _)
      simpa [seqs, Assembler.setChunk, Assembler.noteCall, Assembler.reserveSeq, htxn,
        OpenChunk.staged] using hown

/-! ### Chunks -/

/-- The records fed since the transaction opened do not matter where none is open. -/
theorem of_txn_none (h : Tracks cfg s emitted since a) (htxn : s.txn = none)
    (since' : List (PendingRecord C V)) : Tracks cfg s emitted since' a := by
  refine ⟨?_, h.chunk, h.deferred, h.exclusive, h.units, h.seqs_nodup, h.seqs_le,
    h.calls_le, h.owned⟩
  rw [htxn, h.txn_eq_none.1 htxn]
  exact .none

/-- The open chunk is emitted. -/
theorem close (h : Tracks cfg s emitted since a) (lastForTable : Bool) :
    Tracks cfg (s.setChunk none) (emitted ++ s.chunk.toList.map (·.unit lastForTable)) since
      a.close := by
  cases hc : s.chunk with
  | none =>
    have hs : s.setChunk none = s := by
      cases s
      simp_all [Assembler.setChunk]
    rw [hs, Ledger.close_eq_self (h.chunk_eq_none.1 hc), Option.toList_none, List.map_nil,
      List.append_nil]
    exact h
  | some c =>
    obtain ⟨p, hp, htracks⟩ := h.exists_chunk hc
    have htxn := h.txn_of_chunk hc
    have hseqs : seqs (emitted ++ [c.unit lastForTable]) (s.setChunk none) = seqs emitted s := by
      cases hseq : c.spillUnitSeq <;>
        simp [seqs, Assembler.setChunk, hc, htxn, OpenChunk.unit, hseq]
    refine ⟨h.txn, .none, h.deferred, fun _ => rfl, ?_, ?_, ?_, h.calls_le, ?_⟩
    · rw [show a.close.units = a.units ++ [p] by simp [Ledger.close, hp]]
      refine List.rel_append h.units (.cons ⟨htracks.held, ?_, htracks.records,
        fun hkind => by cases hkind⟩ .nil)
      have hlen := congrArg List.length htracks.held.1
      have hspilled := htracks.held.2
      simp only [List.length_map, List.length_append] at hlen
      simp only [CompleteUnit.eventCount, OpenChunk.unit]
      omega
    · rw [Option.toList_some, List.map_singleton, hseqs]
      exact h.seqs_nodup
    · rw [Option.toList_some, List.map_singleton, hseqs]
      exact h.seqs_le
    · rw [Option.toList_some, List.map_singleton, hseqs]
      exact h.owned

/-- A row joins the chunk. -/
theorem enterChunk (h : Tracks cfg s emitted since a) (htxn : s.txn = none)
    (rec : PendingRecord C V) :
    Tracks cfg (s.enterChunk cfg rec) emitted since
      { a with chunk := some ((a.chunk.getD {}).push rec) } := by
  have htracks : TracksChunk cfg s.spillCalls (s.chunkFor rec) (a.chunk.getD {}) := by
    cases hc : s.chunk with
    | none =>
      rw [h.chunk_eq_none.1 hc, Assembler.chunkFor, hc]
      exact ⟨⟨rfl, rfl⟩, keeps_nil⟩
    | some c =>
      obtain ⟨p, hp, htracks⟩ := h.exists_chunk hc
      rw [hp, Assembler.chunkFor, hc]
      exact htracks
  have hseq : (s.chunkFor rec).spillUnitSeq = s.chunk.bind OpenChunk.spillUnitSeq := by
    unfold Assembler.chunkFor
    cases s.chunk <;> rfl
  have hseqs : seqs emitted (s.enterChunk cfg rec) = seqs emitted s := by
    simp [seqs, Assembler.enterChunk, OpenChunk.push, hseq]
  refine ⟨h.txn, .some ⟨?_, ?_⟩, h.deferred, fun hsome => ?_, h.units, ?_, ?_, h.calls_le,
    ?_⟩
  · exact htracks.held.push rfl
  · exact htracks.records.retain rfl
  · rw [show (s.enterChunk cfg rec).txn = none from htxn] at hsome
    cases hsome
  · rw [hseqs]
    exact h.seqs_nodup
  · rw [hseqs]
    exact h.seqs_le
  · rw [hseqs]
    exact h.owned

/-! ### Transactions -/

end Tracks

theorem observed_append (events : List (PendingRecord C V)) (e : PendingRecord C V)
    (table : String) :
    observed (events ++ [e]) table =
      if e.onTable table then some ((observed events table).getD 0 + 1)
      else observed events table := by
  unfold observed
  rw [List.countP_append, List.countP_singleton]
  split_ifs with he
  · cases events.countP (PendingRecord.onTable table) <;> rfl
  · rfl

namespace TracksTxn

variable {t t' : OpenTxn C V} {p : Parcel (PendingRecord C V)}

/-- A transaction that has just opened. -/
theorem init (cfg : AssemblerConfig C V) (calls : List (SpillCall C V))
    (since : List (PendingRecord C V)) (txnId : String) (beginSeen : Bool) :
    TracksTxn cfg calls since { txnId, beginSeen } {} where
  since := List.nil_sublist _
  counted e he := by cases he
  nodup := List.nodup_nil
  orders := rfl
  count := rfl
  perTable _ := rfl
  held := by
    unfold Holds
    split_ifs
    · exact ⟨rfl, rfl, rfl⟩
    · exact ⟨rfl, rfl⟩
  records := keeps_nil

/-- The transaction carries a record. -/
theorem carry (h : TracksTxn cfg calls since t p) (rec : PendingRecord C V) :
    TracksTxn cfg calls (since ++ [rec]) (t.carry cfg rec) (p.carry rec) :=
  ⟨h.since.trans (List.sublist_append_left _ _), h.counted, h.nodup, h.orders, h.count,
    h.perTable, h.held, h.records.retain rfl⟩

/-- An event enters the transaction. -/
theorem enter (h : TracksTxn cfg calls since t p) {rec rec' : PendingRecord C V}
    (hrec : rec.Counted t.txnId) (hfresh : rec.ordinal ∉ t.orders)
    (horigin : rec'.origin = rec.origin)
    (ht : t'.txnId = t.txnId ∧ t'.orders = insert rec.ordinal t.orders ∧
      t'.count = t.count + 1 ∧ t'.records = cfg.retain t.records rec' ∧
      t'.events = (if cfg.discardStreaming then t.events else t.events ++ [rec']) ∧
      t'.spilled = t.spilled ∧ t'.spillUnitSeq = t.spillUnitSeq)
    (htables : ∀ table, t'.perTable.get? table =
      if rec.onTable table then some ((t.perTable.get? table).getD 0 + 1)
      else t.perTable.get? table) :
    TracksTxn cfg calls (since ++ [rec]) t' (p.push rec) := by
  obtain ⟨hid, horders, hcount, hrecords, hevents, hspilled, hseq⟩ := ht
  refine ⟨h.since.append (List.Sublist.refl _), ?_, ?_, ?_, ?_, ?_, ?_, ?_⟩
  · intro e he
    rw [hid]
    rcases List.mem_append.1 he with he | he
    · exact h.counted e he
    · rw [List.mem_singleton.1 he]
      exact hrec
  · rw [Parcel.push, List.map_append, List.map_singleton]
    refine List.nodup_append.2 ⟨h.nodup, List.nodup_singleton _, ?_⟩
    rintro x hx y hy rfl
    rw [List.mem_singleton] at hy
    rw [h.orders, List.mem_toFinset] at hfresh
    exact hfresh (hy ▸ hx)
  · rw [horders, h.orders, Parcel.push, List.map_append, List.toFinset_append, Finset.union_comm]
    rfl
  · rw [hcount, h.count, Parcel.push, List.length_append, List.length_singleton]
  · intro table
    rw [htables table, h.perTable, Parcel.push, observed_append]
  · have hheld := h.held
    rw [hevents, hspilled, hseq]
    cases hdiscard : cfg.discardStreaming with
    | true =>
      rw [hdiscard] at hheld
      exact hheld
    | false =>
      rw [hdiscard] at hheld
      exact hheld.push horigin
  · rw [hrecords]
    exact h.records.retain horigin

/-- The unit that a transaction becomes stores its parcel. -/
theorem unit (h : TracksTxn cfg calls since t p) (rec : PendingRecord C V) :
    TracksUnit cfg calls ((t.carry cfg rec).unit rec) (p.carry rec) := by
  have hheld := h.held
  have hcount := h.count
  refine ⟨?_, ?_, h.records.retain rfl, fun _ e he => ⟨_, rfl, h.counted e he⟩⟩
  · cases hdiscard : cfg.discardStreaming with
    | true =>
      rw [hdiscard] at hheld
      exact ⟨by simp [OpenTxn.unit, OpenTxn.carry, hheld.1], hheld.2⟩
    | false =>
      rw [hdiscard] at hheld
      refine ⟨?_, hheld.2⟩
      rw [List.map_append]
      refine Eq.trans ?_ ((List.map_append.symm.trans hheld.1 :))
      simp only [OpenTxn.unit, OpenTxn.carry, List.map_map]
      rfl
  · simp only [CompleteUnit.eventCount, OpenTxn.unit, OpenTxn.carry, List.length_map, Parcel.carry]
    cases hdiscard : cfg.discardStreaming with
    | true =>
      rw [hdiscard] at hheld
      obtain ⟨hevents, hspilled, -⟩ := hheld
      rw [hevents, hspilled, hcount]
      simp
    | false =>
      rw [hdiscard] at hheld
      have hlen := congrArg List.length hheld.1
      have hspilled := hheld.2
      simp only [List.length_map, List.length_append] at hlen
      omega

end TracksTxn

/-- The records fed since the open transaction opened, after one more record. -/
def nextSince (s s' : Assembler C V) (since : List (PendingRecord C V))
    (rec : PendingRecord C V) : List (PendingRecord C V) :=
  if s'.txn.isNone then [] else (if s.txn.isNone then [] else since) ++ [rec]

namespace Tracks

/-- The relation does not look at what was fed. -/
theorem arrive (h : Tracks cfg s emitted since a) (fed : List (PendingRecord C V)) :
    Tracks cfg s emitted since { a with fed := fed } :=
  ⟨h.txn, h.chunk, h.deferred, h.exclusive, h.units, h.seqs_nodup, h.seqs_le,
    h.calls_le, h.owned⟩

/-- The relation does not look at the counters of the run summary. -/
theorem congr (h : Tracks cfg s emitted since a) (htxn : s'.txn = s.txn)
    (hchunk : s'.chunk = s.chunk) (hdeferred : s'.deferredSnapshots = s.deferredSnapshots)
    (hseq : s'.spillUnitSeq = s.spillUnitSeq) (hcalls : s'.spillCalls = s.spillCalls) :
    Tracks cfg s' emitted since a := by
  have hseqs : seqs emitted s' = seqs emitted s := by rw [seqs, seqs, htxn, hchunk]
  refine ⟨?_, ?_, hdeferred ▸ h.deferred, ?_, ?_, hseqs ▸ h.seqs_nodup, ?_, ?_, ?_⟩
  · rw [hcalls, htxn]
    exact h.txn
  · rw [hcalls, hchunk]
    exact h.chunk
  · rw [htxn, hchunk]
    exact h.exclusive
  · rw [hcalls]
    exact h.units
  · rw [hseqs, hseq]
    exact h.seqs_le
  · rw [hcalls, hseq]
    exact h.calls_le
  · rw [hcalls, hseqs]
    exact h.owned

/-- A record that changes nothing. -/
theorem ignore (h : Tracks cfg s emitted since a) (rec : PendingRecord C V) :
    Tracks cfg s emitted (nextSince s s since rec) a := by
  cases ht : s.txn with
  | none => exact h.of_txn_none ht _
  | some t =>
    obtain ⟨p, hp, htracks⟩ := h.exists_txn ht
    refine ⟨?_, h.chunk, h.deferred, h.exclusive, h.units, h.seqs_nodup, h.seqs_le,
    h.calls_le, h.owned⟩
    rw [ht, hp]
    refine .some { htracks with since := ?_ }
    simp only [nextSince, ht, Option.isNone_some, Bool.false_eq_true, if_false]
    exact htracks.since.trans (List.sublist_append_left _ _)

/-- The open transaction is replaced by one of the same seq. -/
theorem setTxn (h : Tracks cfg s emitted since a) (hchunk : s.chunk = none) {t : OpenTxn C V}
    {p : Parcel (PendingRecord C V)} {since' : List (PendingRecord C V)}
    (ht : TracksTxn cfg s.spillCalls since' t p)
    (hseq : t.spillUnitSeq = s.txn.bind OpenTxn.spillUnitSeq) :
    Tracks cfg (s.setTxn (some t)) emitted since' { a with txn := some p } := by
  have hseqs : seqs emitted (s.setTxn (some t)) = seqs emitted s := by
    simp [seqs, Assembler.setTxn, hseq]
  exact ⟨.some ht, h.chunk, h.deferred, fun _ => hchunk, h.units, hseqs ▸ h.seqs_nodup,
    hseqs ▸ h.seqs_le, h.calls_le, hseqs ▸ h.owned⟩

/-- A transaction that could not be proven whole is lost. -/
theorem dropTxn (h : Tracks cfg s emitted since a) (since' : List (PendingRecord C V)) :
    Tracks cfg (s.setTxn none) emitted since' { a with txn := none, lossy := true } := by
  have hsub : List.Sublist (seqs emitted (s.setTxn none)) (seqs emitted s) := by
    simp only [seqs, Assembler.setTxn, Option.bind_none, Option.toList_none, List.append_nil]
    exact (List.sublist_append_left _ _).append (List.Sublist.refl _)
  exact ⟨.none, h.chunk, h.deferred, fun hsome => (by cases hsome), h.units,
    h.seqs_nodup.sublist hsub, fun q hq => h.seqs_le q (hsub.subset hq), h.calls_le,
    fun hl => by cases hl⟩

/-- The transaction ends with a record, and is emitted. -/
theorem complete (h : Tracks cfg s emitted since a) {t : OpenTxn C V} (ht : s.txn = some t)
    (rec : PendingRecord C V) (since' : List (PendingRecord C V)) :
    Tracks cfg (s.setTxn none) (emitted ++ [(t.carry cfg rec).unit rec]) since'
      (a.complete rec) := by
  obtain ⟨p, hp, htracks⟩ := h.exists_txn ht
  have hchunk := h.exclusive (by simp [ht])
  have hseqs : seqs (emitted ++ [(t.carry cfg rec).unit rec]) (s.setTxn none) =
      seqs emitted s := by
    cases hseq : t.spillUnitSeq <;>
      simp [seqs, Assembler.setTxn, ht, hchunk, OpenTxn.unit, OpenTxn.carry, hseq]
  refine ⟨.none, h.chunk, h.deferred, fun hsome => (by cases hsome), ?_, hseqs ▸ h.seqs_nodup,
    hseqs ▸ h.seqs_le,
    h.calls_le, hseqs ▸ h.owned⟩
  rw [show (a.complete rec).units = a.units ++ [p.carry rec] by simp [Ledger.complete, hp]]
  exact List.rel_append h.units (.cons (htracks.unit rec) .nil)

/-- A record is emitted as a unit of its own. -/
theorem single (h : Tracks cfg s emitted since a) {u : CompleteUnit C V}
    (hu : TracksUnit cfg s.spillCalls u
      ⟨if rec.isEvent then [rec] else [], [rec]⟩) (hseq : u.spillUnitSeq = none) :
    Tracks cfg s (emitted ++ [u]) since (a.single PendingRecord.isEvent rec) := by
  have hseqs : seqs (emitted ++ [u]) s = seqs emitted s := by simp [seqs, hseq]
  exact ⟨h.txn, h.chunk, h.deferred, h.exclusive, List.rel_append h.units (.cons hu .nil),
    hseqs ▸ h.seqs_nodup, hseqs ▸ h.seqs_le, h.calls_le, hseqs ▸ h.owned⟩

end Tracks

end CdcFlight
