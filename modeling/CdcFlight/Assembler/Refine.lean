import CdcFlight.Assembler.Tracks

/-!
# Feeding a record

Feeding a record keeps the assembler and its ledger together, also where the assembler raises. A
record that is accepted is one round of the ledger.

## Main definitions

* `CdcFlight.Input`: a record with the entry point it goes to.
* `CdcFlight.Follows`: what a record has done against the ledger.

## Main results

* `CdcFlight.Tracks.follows_input`: every input keeps assembler and ledger together.
-/

namespace CdcFlight

open Lib

variable {C V : Type} {cfg : AssemblerConfig C V} {s s' : Assembler C V}
  {emitted units : List (CompleteUnit C V)} {since : List (PendingRecord C V)}
  {a b : Ledger (PendingRecord C V)} {rec : PendingRecord C V} {refusal : Refusal}

/-- What a record that is no snapshot row does to a ledger without an open chunk. -/
inductive Streamed (a : Ledger (PendingRecord C V)) (r : PendingRecord C V) :
    Ledger (PendingRecord C V) → Prop
  | begin (htxn : a.txn = none) (hr : r.isEvent = false) : Streamed a r (a.begin r)
  | push (hr : r.isEvent) : Streamed a r (a.push r)
  | carry (htxn : a.txn.isSome) (hr : r.isEvent = false) (hkind : r.kind ≠ .txnEnd) :
      Streamed a r (a.carry r)
  | single (htxn : a.txn = none) : Streamed a r (a.single PendingRecord.isEvent r)
  | complete (htxn : a.txn.isSome) (hkind : r.kind = .txnEnd) : Streamed a r (a.complete r)

namespace Tracks

/-! ### Counted events -/

theorem maybeSpillTxn_ok (h : Tracks cfg s emitted since a)
    (hkeep : cfg.discardStreaming = false)
    (hrun : (maybeSpillTxn cfg).run s = .ok () s') :
    Tracks cfg s' emitted since a ∧ s'.txn.isSome = s.txn.isSome := by
  rcases maybeSpillTxn_cases cfg s with hsame | ⟨t, ht, hstaged | ⟨refusal, hraise⟩⟩
  · rw [hsame] at hrun
    cases hrun
    exact ⟨h, rfl⟩
  · rw [hstaged] at hrun
    cases hrun
    exact ⟨(h.spillTxn hkeep ht).2, by simp [Assembler.setTxn, ht]⟩
  · rw [hraise] at hrun
    cases hrun

theorem maybeSpillTxn_error (h : Tracks cfg s emitted since a)
    (hkeep : cfg.discardStreaming = false)
    (hrun : (maybeSpillTxn cfg).run s = .error refusal s') :
    Tracks cfg s' emitted since a ∧ s'.txn.isSome = s.txn.isSome := by
  rcases maybeSpillTxn_cases cfg s with hsame | ⟨t, ht, hstaged | ⟨refusal, hraise⟩⟩
  · rw [hsame] at hrun
    cases hrun
  · rw [hstaged] at hrun
    cases hrun
  · rw [hraise] at hrun
    cases hrun
    exact ⟨(h.spillTxn hkeep ht).1, by simp [Assembler.setTxn, ht]⟩

/-- How a counted event changes the counters of a transaction. -/
structure Admits (cfg : AssemblerConfig C V) (rec : PendingRecord C V)
    (f : OpenTxn C V → OpenTxn C V) : Prop where
  counters : ∃ rec' : PendingRecord C V, rec'.origin = rec.origin ∧ ∀ t,
    (f t).txnId = t.txnId ∧ (f t).orders = insert rec.ordinal t.orders ∧
      (f t).count = t.count + 1 ∧ (f t).records = cfg.retain t.records rec' ∧
      (f t).events = (if cfg.discardStreaming then t.events else t.events ++ [rec']) ∧
      (f t).spilled = t.spilled ∧ (f t).spillUnitSeq = t.spillUnitSeq
  tables : ∀ t table, (f t).perTable.get? table =
    if rec.onTable table then some ((t.perTable.get? table).getD 0 + 1)
    else t.perTable.get? table

/-- A counted event has entered the transaction that is open, or one that opens with it. -/
theorem admitted (h : Tracks cfg s emitted since a) (hchunk : s.chunk = none)
    {f : OpenTxn C V → OpenTxn C V} (hf : Admits cfg rec f) {t : OpenTxn C V}
    (ht : s.txn = some t ∨ s.txn = none ∧ t = { txnId := t.txnId, beginSeen := false })
    (hrec : rec.Counted t.txnId) (hfresh : rec.ordinal ∉ t.orders) :
    Tracks cfg (s.setTxn (some (f t))) emitted
      ((if s.txn.isNone then [] else since) ++ [rec]) (a.push rec) := by
  obtain ⟨rec', horigin, hcounters⟩ := hf.counters
  rcases ht with ht | ⟨ht, hnew⟩
  · obtain ⟨p, hp, htracks⟩ := h.exists_txn ht
    have hset := h.setTxn hchunk
      (htracks.enter hrec hfresh horigin (hcounters t) (hf.tables t))
      (by rw [(hcounters t).2.2.2.2.2.2, ht, Option.bind_some])
    simp only [ht, Option.isNone_some, Bool.false_eq_true, if_false]
    rw [show p = a.txn.getD {} by rw [hp, Option.getD_some]] at hset
    exact hset.arrive _
  · have htracks := TracksTxn.init cfg s.spillCalls [] t.txnId false
    rw [← hnew] at htracks
    have hset := h.setTxn hchunk
      (htracks.enter hrec hfresh horigin (hcounters t) (hf.tables t))
      (by
        rw [(hcounters t).2.2.2.2.2.2, ht, Option.bind_none, hnew])
    simp only [ht, Option.isNone_none, if_true]
    rw [show ({} : Parcel (PendingRecord C V)) = a.txn.getD {} by
      rw [h.txn_eq_none.1 ht, Option.getD_none]] at hset
    exact hset.arrive _

/-- The program of a counted event: join the transaction, then enter it. -/
def enterCounted (cfg : AssemblerConfig C V) (txnId : String) (order : ℤ)
    (changed : OpenTxn C V → String) (twice : String) (f : OpenTxn C V → OpenTxn C V) :
    Assemble C V (List (CompleteUnit C V)) := do
  let txn ← joinTxn txnId changed
  enterTxn cfg txn order twice (f txn)

/-- A counted event enters, or is refused. -/
theorem enterCounted_cases (h : Tracks cfg s emitted since a) (hchunk : s.chunk = none)
    {f : OpenTxn C V → OpenTxn C V} (hf : Admits cfg rec f) {txnId : String}
    (hrec : rec.Counted txnId) (changed : OpenTxn C V → String) (twice : String) :
    (∃ s', (enterCounted cfg txnId rec.ordinal changed twice f).run s = .ok [] s' ∧
      s'.txn.isSome ∧ Tracks cfg s' emitted (nextSince s s' since rec) (a.push rec)) ∨
    ∃ refusal s' a', (enterCounted cfg txnId rec.ordinal changed twice f).run s =
      .error refusal s' ∧ Tracks cfg s' emitted (nextSince s s' since rec) a' := by
  -- the transaction has been joined, and its parcel has the event
  have henter (s₁ : Assembler C V) (h₁ : Tracks cfg s₁ emitted
      ((if s.txn.isNone then [] else since) ++ [rec]) (a.push rec)) (hsome : s₁.txn.isSome) :
      (∃ s', (if cfg.discardStreaming then pure [] else do
          maybeSpillTxn cfg
          pure [] : Assemble C V (List (CompleteUnit C V))).run s₁ = .ok [] s' ∧
        s'.txn.isSome ∧ Tracks cfg s' emitted (nextSince s s' since rec) (a.push rec)) ∨
      ∃ refusal s' a', (if cfg.discardStreaming then pure [] else do
          maybeSpillTxn cfg
          pure [] : Assemble C V (List (CompleteUnit C V))).run s₁ = .error refusal s' ∧
        Tracks cfg s' emitted (nextSince s s' since rec) a' := by
    have hnext (s' : Assembler C V) (hs' : s'.txn.isSome) : nextSince s s' since rec =
        (if s.txn.isNone then [] else since) ++ [rec] := by
      rw [nextSince, if_neg (by simpa [Option.isNone_iff_eq_none, Option.isSome_iff_ne_none]
        using hs')]
    cases hdiscard : cfg.discardStreaming with
    | true => exact Or.inl ⟨s₁, rfl, hsome, by rw [hnext s₁ hsome]; exact h₁⟩
    | false =>
      simp only [Bool.false_eq_true, if_false, EStateM.run_bind]
      cases hspill : (maybeSpillTxn cfg).run s₁ with
      | ok _ s' =>
        obtain ⟨htracks, hs'⟩ := h₁.maybeSpillTxn_ok hdiscard hspill
        rw [hsome] at hs'
        exact Or.inl ⟨s', rfl, hs', by rw [hnext s' hs']; exact htracks⟩
      | error refusal s' =>
        obtain ⟨htracks, hs'⟩ := h₁.maybeSpillTxn_error hdiscard hspill
        rw [hsome] at hs'
        exact Or.inr ⟨refusal, s', a.push rec, rfl, by rw [hnext s' hs']; exact htracks⟩
  unfold enterCounted
  simp only [EStateM.run_bind]
  unfold joinTxn
  simp only [EStateM.run_bind, EStateM.run_get]
  cases ht : s.txn with
  | none =>
    simp only [EStateM.run_bind, EStateM.run_set, EStateM.run_pure, enterTxn,
      Finset.notMem_empty, if_false, EStateM.run_modify]
    refine henter _ ?_ rfl
    have := (h.admitted hchunk hf (t := { txnId, beginSeen := false }) (Or.inr ⟨ht, rfl⟩) hrec
      (Finset.notMem_empty _))
    exact this.congr rfl rfl rfl rfl rfl
  | some t =>
    dsimp only
    split_ifs with hid
    · exact Or.inr ⟨_, s, a, rfl, h.ignore rec⟩
    · obtain rfl : t.txnId = txnId := not_not.1 hid
      simp only [EStateM.run_pure, enterTxn]
      by_cases hdup : rec.ordinal ∈ t.orders
      · rw [if_pos hdup]
        exact Or.inr ⟨_, s, a, rfl, h.ignore rec⟩
      · rw [if_neg hdup]
        simp only [EStateM.run_bind, EStateM.run_modify]
        exact henter _ (h.admitted hchunk hf (Or.inl ht) hrec hdup) rfl

end Tracks

/-! ### Streaming records -/

/-- What a record has done against the ledger: a step of it where the record is accepted, and
nothing but a loss of unfinished work where the assembler raised. -/
def Follows (cfg : AssemblerConfig C V) (s : Assembler C V) (emitted : List (CompleteUnit C V))
    (since : List (PendingRecord C V)) (rec : PendingRecord C V)
    (step : Ledger (PendingRecord C V) → Prop) :
    EStateM.Result Refusal (Assembler C V) (List (CompleteUnit C V)) → Prop
  | .ok units s' => ∃ b, step b ∧ Tracks cfg s' (emitted ++ units) (nextSince s s' since rec) b
  | .error _ s' => ∃ b, Tracks cfg s' emitted (nextSince s s' since rec) b

theorem validateOrdinal_cases (rec : PendingRecord C V) (s : Assembler C V) :
    ((validateOrdinal rec).run s = .ok rec.ordinal s ∧
      rec.totalOrder = some (.int rec.ordinal) ∧ 1 ≤ rec.ordinal) ∨
    ∃ refusal, (validateOrdinal rec).run s = .error refusal s := by
  unfold validateOrdinal
  cases horder : rec.totalOrder with
  | none => exact Or.inr ⟨_, rfl⟩
  | some order =>
    cases order with
    | unparsable => exact Or.inr ⟨_, rfl⟩
    | int n =>
      have hord : rec.ordinal = n := by simp [PendingRecord.ordinal, horder]
      dsimp only
      split_ifs with hlt
      · exact Or.inr ⟨_, rfl⟩
      · rw [hord]
        exact Or.inl ⟨rfl, rfl, not_lt.1 hlt⟩

theorem admits_data (hkind : rec.kind = .data ∨ rec.kind = .truncate) :
    Tracks.Admits cfg rec fun t => (t.enter cfg rec rec.ordinal).countData rec where
  counters := ⟨rec, rfl, fun _ => ⟨rfl, rfl, rfl, rfl, rfl, rfl, rfl⟩⟩
  tables t table := by
    have hmsg : rec.kind ≠ .message := by rcases hkind with hkind | hkind <;> simp [hkind]
    by_cases htable : truthy rec.qualifiedTable = true
    · by_cases heq : rec.ordinalKey = table
      · subst heq
        simp [OpenTxn.countData, OpenTxn.enter, PendingRecord.onTable, hmsg, htable]
      · simp [OpenTxn.countData, OpenTxn.enter, PendingRecord.onTable, htable, heq,
          Ne.symm heq]
    · simp [OpenTxn.countData, OpenTxn.enter, PendingRecord.onTable, htable]

theorem admits_message (hkind : rec.kind = .message) :
    Tracks.Admits cfg rec fun t =>
      (t.enter cfg { rec with messageTransactional := some true } rec.ordinal).countMessage where
  counters := ⟨{ rec with messageTransactional := some true }, rfl,
    fun _ => ⟨rfl, rfl, rfl, rfl, rfl, rfl, rfl⟩⟩
  tables t table := by
    simp [OpenTxn.countMessage, OpenTxn.enter, PendingRecord.onTable, hkind]

namespace Tracks

variable (h : Tracks cfg s emitted since a)
include h

/-- A program that raised before it did anything. -/
theorem follows_raise (step : Ledger (PendingRecord C V) → Prop) (refusal : Refusal) :
    Follows cfg s emitted since rec step (.error refusal s) :=
  ⟨a, h.ignore rec⟩

theorem follows_counted (hchunk : s.chunk = none) {f : OpenTxn C V → OpenTxn C V}
    (hf : Admits cfg rec f) {txnId : String} (hrec : rec.Counted txnId)
    (changed : OpenTxn C V → String) (twice : String) :
    Follows cfg s emitted since rec (Streamed a rec)
      ((enterCounted cfg txnId rec.ordinal changed twice f).run s) := by
  have hevent : rec.isEvent := by
    rcases hrec.kind with hkind | hkind | hkind <;> simp [PendingRecord.isEvent, hkind]
  rcases h.enterCounted_cases hchunk hf hrec changed twice with
    ⟨s', hrun, -, htracks⟩ | ⟨refusal, s', a', hrun, htracks⟩
  · rw [hrun]
    exact ⟨_, .push hevent, by rwa [List.append_nil]⟩
  · rw [hrun]
    exact ⟨a', htracks⟩

theorem follows_feedData (hchunk : s.chunk = none)
    (hkind : rec.kind = .data ∨ rec.kind = .truncate) :
    Follows cfg s emitted since rec (Streamed a rec) ((feedData cfg rec).run s) := by
  unfold feedData
  split
  case h_1 => exact h.follows_raise _ _
  case h_2 txnId hid =>
    simp only [EStateM.run_bind]
    rcases validateOrdinal_cases rec s with ⟨hrun, horder, hone⟩ | ⟨refusal, hrun⟩
    · rw [hrun]
      exact h.follows_counted hchunk (admits_data hkind)
        ⟨hid, hkind.elim Or.inl (Or.inr ∘ Or.inl), horder, hone⟩ _ _
    · rw [hrun]
      exact h.follows_raise _ _

theorem follows_feedTransactionalMessage (hchunk : s.chunk = none) (hkind : rec.kind = .message) :
    Follows cfg s emitted since rec (Streamed a rec)
      ((feedTransactionalMessage cfg rec).run s) := by
  unfold feedTransactionalMessage
  split
  case h_1 => exact h.follows_raise _ _
  case h_2 txnId hid =>
    simp only [EStateM.run_bind]
    rcases validateOrdinal_cases rec s with ⟨hrun, horder, hone⟩ | ⟨refusal, hrun⟩
    · rw [hrun]
      exact h.follows_counted hchunk (admits_message hkind)
        ⟨hid, Or.inr (Or.inr hkind), horder, hone⟩ _ _
    · rw [hrun]
      exact h.follows_raise _ _

theorem follows_feedBegin (hchunk : s.chunk = none) (hkind : rec.kind = .txnBegin) :
    Follows cfg s emitted since rec (Streamed a rec) ((feedBegin cfg rec).run s) := by
  unfold feedBegin
  simp only [EStateM.run_bind, EStateM.run_get]
  cases ht : s.txn with
  | some t => exact h.follows_raise _ _
  | none =>
    cases hid : rec.txnId with
    | none => exact h.follows_raise _ _
    | some txnId =>
      refine ⟨a.begin rec, .begin (h.txn_eq_none.1 ht) (by simp [PendingRecord.isEvent, hkind]), ?_⟩
      have hopen := (TracksTxn.init cfg s.spillCalls [] txnId true).carry rec
      have hset := (h.setTxn hchunk hopen (by rw [ht]; rfl)).arrive (a.fed ++ [rec])
      simpa [nextSince, Assembler.setTxn, ht, OpenTxn.carry, Parcel.carry, Ledger.begin]
        using hset

omit h in
private theorem controlUnit_tracks (cfg : AssemblerConfig C V) (calls : List (SpillCall C V))
    (hevent : rec.isEvent = false) :
    TracksUnit cfg calls (controlUnit rec) ⟨if rec.isEvent then [rec] else [], [rec]⟩ := by
  rw [if_neg (by simp [hevent])]
  exact ⟨⟨rfl, rfl⟩, rfl, keeps_singleton rfl, fun hkind => by cases hkind⟩

omit h in
private theorem messageUnit_tracks (cfg : AssemblerConfig C V) (calls : List (SpillCall C V))
    (hevent : rec.isEvent) :
    TracksUnit cfg calls (messageUnit rec) ⟨if rec.isEvent then [rec] else [], [rec]⟩ := by
  rw [if_pos hevent]
  exact ⟨⟨rfl, rfl⟩, rfl, keeps_singleton rfl, fun hkind => by cases hkind⟩

/-- A unit of its own where no transaction is open. -/
theorem follows_single (ht : s.txn = none) {u : CompleteUnit C V}
    (hu : TracksUnit cfg s.spillCalls u ⟨if rec.isEvent then [rec] else [], [rec]⟩)
    (hseq : u.spillUnitSeq = none) (hs' : s'.txn = s.txn)
    (hchunk : s'.chunk = s.chunk) (hdeferred : s'.deferredSnapshots = s.deferredSnapshots)
    (hcount : s'.spillUnitSeq = s.spillUnitSeq) (hcalls : s'.spillCalls = s.spillCalls) :
    Follows cfg s emitted since rec (Streamed a rec) (.ok [u] s') :=
  ⟨_, .single (h.txn_eq_none.1 ht), ((h.single hu hseq).congr hs' hchunk hdeferred hcount
    hcalls).of_txn_none (hs'.trans ht) _⟩

theorem follows_feedControl (hchunk : s.chunk = none)
    (hkind : rec.kind = .message ∨ rec.isEvent = false) (hend : rec.kind ≠ .txnEnd) :
    Follows cfg s emitted since rec (Streamed a rec) ((feedControl cfg rec).run s) := by
  unfold feedControl
  by_cases hmsg : rec.kind = .message
  · have hevent : rec.isEvent := by simp [PendingRecord.isEvent, hmsg]
    cases htransactional : rec.transactional with
    | true =>
      rw [if_pos (by simp [hmsg])]
      exact h.follows_feedTransactionalMessage hchunk hmsg
    | false =>
      rw [if_neg (by simp)]
      simp only [EStateM.run_bind, EStateM.run_get]
      cases ht : s.txn with
      | some t =>
        simp only [hmsg, if_true]
        exact h.follows_raise _ _
      | none =>
        simp only [hmsg, if_true]
        exact h.follows_single ht (messageUnit_tracks cfg _ hevent) rfl rfl rfl rfl rfl rfl
  · have hevent : rec.isEvent = false := hkind.resolve_left hmsg
    rw [if_neg (by simp [hmsg])]
    simp only [EStateM.run_bind, EStateM.run_get]
    cases ht : s.txn with
    | some t =>
      simp only [hmsg, if_false]
      obtain ⟨p, hp, htracks⟩ := h.exists_txn ht
      refine ⟨a.carry rec, .carry (by simp [hp]) hevent hend, ?_⟩
      have hset := (h.setTxn hchunk (htracks.carry rec) (by rw [ht]; rfl)).arrive (a.fed ++ [rec])
      simpa [nextSince, Assembler.setTxn, ht, Ledger.carry, hp] using hset
    | none =>
      simp only [hmsg, if_false]
      exact h.follows_single ht (controlUnit_tracks cfg _ hevent) rfl rfl rfl rfl rfl rfl

theorem follows_feedEnd (hkind : rec.kind = .txnEnd) :
    Follows cfg s emitted since rec (Streamed a rec) ((feedEnd cfg rec).run s) := by
  have hevent : rec.isEvent = false := by simp [PendingRecord.isEvent, hkind]
  unfold feedEnd
  simp only [EStateM.run_bind, EStateM.run_get]
  cases ht : s.txn with
  | none =>
    exact h.follows_single ht (controlUnit_tracks cfg _ hevent) rfl ht.symm rfl rfl rfl rfl
  | some t =>
    dsimp only
    split_ifs with hid
    · exact h.follows_raise _ _
    · obtain ⟨p, hp, -⟩ := h.exists_txn ht
      simp only [EStateM.run_bind, EStateM.run_set]
      cases hverify : verifyComplete (t.carry cfg rec) rec with
      | error refusal => exact ⟨_, h.dropTxn _⟩
      | ok _ => exact ⟨_, .complete (by simp [hp]) hkind, h.complete ht rec _⟩

/-- **A record that is no snapshot row**, after the chunk has been closed. -/
theorem follows_feedStream (hchunk : s.chunk = none) (hkind : rec.kind ≠ .snapshot) :
    Follows cfg s emitted since rec (Streamed a rec) ((feedStream cfg rec).run s) := by
  unfold feedStream
  cases hk : rec.kind with
  | txnBegin => exact h.follows_feedBegin hchunk hk
  | txnEnd => exact h.follows_feedEnd hk
  | data => exact h.follows_feedData hchunk (Or.inl hk)
  | truncate => exact h.follows_feedData hchunk (Or.inr hk)
  | message => exact h.follows_feedControl hchunk (Or.inl hk) (by simp [hk])
  | snapshot => exact absurd hk hkind
  | _ =>
    exact h.follows_feedControl hchunk (Or.inr (by simp [PendingRecord.isEvent, hk]))
      (by simp [hk])

end Tracks

/-! ### Snapshot rows -/

/-- A row joins the open chunk. -/
def Ledger.join (a : Ledger (PendingRecord C V)) (r : PendingRecord C V) :
    Ledger (PendingRecord C V) :=
  { a with chunk := some ((a.chunk.getD {}).push r) }

/-- What a snapshot row does: the chunk may close before the row joins it, and after. -/
def Joined (a : Ledger (PendingRecord C V)) (r : PendingRecord C V)
    (c : Ledger (PendingRecord C V)) : Prop :=
  ∃ b, a.MayClose b ∧ (b.join r).MayClose c

/-- What a program that only handles snapshot rows has done, where no transaction is open. -/
def Lands (cfg : AssemblerConfig C V) (emitted : List (CompleteUnit C V))
    (step : Ledger (PendingRecord C V) → Prop) :
    EStateM.Result Refusal (Assembler C V) (List (CompleteUnit C V)) → Prop
  | .ok units s' => ∃ b, step b ∧ b.txn = none ∧ Tracks cfg s' (emitted ++ units) [] b
  | .error _ s' => ∃ b, b.txn = none ∧ Tracks cfg s' emitted [] b

theorem run_closeChunk (lastForTable : Bool) (s : Assembler C V) :
    (closeChunk lastForTable).run s =
      .ok (s.chunk.toList.map (·.unit lastForTable)) (s.setChunk none) := by
  unfold closeChunk
  simp only [EStateM.run_bind, EStateM.run_get]
  cases hc : s.chunk with
  | none =>
    have hs : s.setChunk none = s := by
      cases s
      simp_all [Assembler.setChunk]
    rw [hs]
    rfl
  | some c => rfl

theorem Joined.txn {c : Ledger (PendingRecord C V)} (h : Joined a rec c) : c.txn = a.txn := by
  obtain ⟨b, h, h'⟩ := h
  exact h'.frame.1.trans h.frame.1

namespace Tracks

/-- Units that were not returned are lost. -/
theorem forgetUnits (h : Tracks cfg s (emitted ++ units) since a) :
    ∃ b, b.txn = a.txn ∧ Tracks cfg s emitted since b := by
  have hsub : List.Sublist (seqs emitted s) (seqs (emitted ++ units) s) := by
    simp only [seqs, List.filterMap_append, List.append_assoc]
    exact (List.Sublist.refl _).append (List.sublist_append_right _ _)
  refine ⟨{ a with units := a.units.take emitted.length, lossy := true }, rfl, h.txn, h.chunk,
    h.deferred,
    h.exclusive, ?_, h.seqs_nodup.sublist hsub, fun q hq => h.seqs_le q (hsub.subset hq),
    h.calls_le, fun hl => by cases hl⟩
  have htake := List.forall₂_take emitted.length h.units
  rwa [List.take_left] at htake

/-- The chunk is emitted, or stays. -/
theorem makeRoom_ok (h : Tracks cfg s emitted since a) (rec : PendingRecord C V) :
    ∃ units s' b, (makeRoom rec).run s = .ok units s' ∧ a.MayClose b ∧
      Tracks cfg s' (emitted ++ units) since b := by
  unfold makeRoom
  simp only [EStateM.run_bind, EStateM.run_get]
  have hstay : ∃ units s' b, (.ok [] s : EStateM.Result Refusal _ _) = .ok units s' ∧
      a.MayClose b ∧ Tracks cfg s' (emitted ++ units) since b :=
    ⟨[], s, a, rfl, Or.inl rfl, by rwa [List.append_nil]⟩
  cases hc : s.chunk with
  | none => exact hstay
  | some c =>
    dsimp only
    split_ifs with htable hmode
    · exact ⟨_, _, _, run_closeChunk true s, Or.inr rfl, h.close true⟩
    · exact ⟨_, _, _, run_closeChunk false s, Or.inr rfl, h.close false⟩
    · exact hstay

theorem maybeSpillChunk_ok (h : Tracks cfg s emitted since a)
    (hrun : (maybeSpillChunk cfg).run s = .ok () s') : Tracks cfg s' emitted since a := by
  rcases maybeSpillChunk_cases cfg s with hsame | ⟨c, hc, hstaged | ⟨refusal, hraise⟩⟩
  · rw [hsame] at hrun
    cases hrun
    exact h
  · rw [hstaged] at hrun
    cases hrun
    exact (h.spillChunk hc).2
  · rw [hraise] at hrun
    cases hrun

theorem maybeSpillChunk_error (h : Tracks cfg s emitted since a)
    (hrun : (maybeSpillChunk cfg).run s = .error refusal s') : Tracks cfg s' emitted since a := by
  rcases maybeSpillChunk_cases cfg s with hsame | ⟨c, hc, hstaged | ⟨refusal, hraise⟩⟩
  · rw [hsame] at hrun
    cases hrun
  · rw [hstaged] at hrun
    cases hrun
  · rw [hraise] at hrun
    cases hrun
    exact (h.spillChunk hc).1

/-- **A snapshot row**, where no transaction is open. -/
theorem lands_feedSnapshot (h : Tracks cfg s emitted [] a) (ht : a.txn = none)
    (rec : PendingRecord C V) :
    Lands cfg emitted (Joined a rec) ((feedSnapshot cfg rec).run s) := by
  unfold feedSnapshot
  simp only [EStateM.run_bind, EStateM.run_get]
  rw [if_neg (by simp [h.txn_eq_none.2 ht])]
  split_ifs with hmode
  · exact ⟨a, ht, h⟩
  · obtain ⟨before, s₁, b, hroom, hb, h₁⟩ := h.makeRoom_ok rec
    have hbt : b.txn = none := hb.frame.1.trans ht
    have h₂ : Tracks cfg (s₁.enterChunk cfg rec) (emitted ++ before) [] (b.join rec) :=
      h₁.enterChunk (h₁.txn_eq_none.2 hbt) rec
    simp only [EStateM.run_bind, hroom, EStateM.run_modify]
    cases hspill : (maybeSpillChunk cfg).run (s₁.enterChunk cfg rec) with
    | error refusal s₂ =>
      obtain ⟨c, hct, h₃⟩ := (h₂.maybeSpillChunk_error hspill).forgetUnits
      exact ⟨c, hct.trans hbt, h₃⟩
    | ok _ s₂ =>
      have h₃ := h₂.maybeSpillChunk_ok hspill
      simp only [EStateM.run_get]
      split_ifs with hfull
      · simp only [EStateM.run_bind, run_closeChunk, EStateM.run_pure]
        refine ⟨_, ⟨b, hb, Or.inr rfl⟩, hbt, ?_⟩
        rw [← List.append_assoc]
        exact h₃.close _
      · exact ⟨_, ⟨b, hb, Or.inl rfl⟩, hbt, h₃⟩

/-- **The waiting rows are released one by one.** -/
theorem lands_flush (h : Tracks cfg s emitted [] a) (ht : a.txn = none)
    (waiting : List (PendingRecord C V)) (hd : a.deferred = waiting) :
    Lands cfg emitted (fun b => Relation.ReflTransGen Ledger.Late a b ∧ b.deferred = [])
      ((flushDeferredSnapshots cfg waiting).run s) := by
  induction waiting generalizing s emitted a with
  | nil => exact ⟨a, ⟨.refl, hd⟩, ht, by rwa [List.append_nil]⟩
  | cons r rest ih =>
    have h₁ : Tracks cfg (s.setDeferred rest) emitted [] { a with deferred := rest } :=
      ⟨h.txn, h.chunk, ⟨rfl, fun e he => h.deferred.rows e (by rw [hd]; exact .tail _ he)⟩,
        h.exclusive, h.units, h.seqs_nodup, h.seqs_le, h.calls_le, h.owned⟩
    simp only [flushDeferredSnapshots, EStateM.run_bind, EStateM.run_modify]
    have hland := h₁.lands_feedSnapshot ht r
    cases hrun : (feedSnapshot cfg r).run (s.setDeferred rest) with
    | error refusal s₁ =>
      rw [hrun] at hland
      exact hland
    | ok before s₁ =>
      rw [hrun] at hland
      obtain ⟨c, hjoin, hct, h₂⟩ := hland
      have hlate : Ledger.Late a c ∧ c.deferred = rest := by
        obtain ⟨b, hb, hc⟩ := hjoin
        refine ⟨?_, hc.frame.2.1.trans hb.frame.2.1⟩
        rcases hb with rfl | rfl
        · exact .release ht (Or.inl rfl) hd hc
        · exact .release ht (Or.inr rfl) hd hc
      have hrest := ih h₂ hct hlate.2
      dsimp only
      cases hmore : (flushDeferredSnapshots cfg rest).run s₁ with
      | error refusal s₂ =>
        rw [hmore] at hrest
        obtain ⟨d, hdt, h₃⟩ := hrest
        obtain ⟨d', hdt', h₄⟩ := h₃.forgetUnits
        exact ⟨d', hdt'.trans hdt, h₄⟩
      | ok more s₂ =>
        rw [hmore] at hrest
        obtain ⟨d, ⟨hlates, hnil⟩, hdt, h₃⟩ := hrest
        refine ⟨d, ⟨.head hlate.1 hlates, hnil⟩, hdt, ?_⟩
        rwa [← List.append_assoc]

end Tracks

/-! ### The entry points -/

theorem nextSince_of_none (hs' : s'.txn = none) : nextSince s s' since rec = [] := by
  simp [nextSince, hs']

/-- A program that only handles snapshot rows, as the handling of a record that arrives. -/
theorem Lands.follows {step step' : Ledger (PendingRecord C V) → Prop}
    {result : EStateM.Result Refusal (Assembler C V) (List (CompleteUnit C V))}
    (h : Lands cfg emitted step result) (fed : List (PendingRecord C V))
    (hstep : ∀ b, step b → step' { b with fed := fed }) :
    Follows cfg s emitted since rec step' result := by
  cases result with
  | ok units s' =>
    obtain ⟨b, hb, hbt, h'⟩ := h
    refine ⟨{ b with fed := fed }, hstep b hb, ?_⟩
    rw [nextSince_of_none (h'.txn_eq_none.2 hbt)]
    exact h'.arrive fed
  | error refusal s' =>
    obtain ⟨b, hbt, h'⟩ := h
    refine ⟨b, ?_⟩
    rwa [nextSince_of_none (h'.txn_eq_none.2 hbt)]

/-- A row that joins the chunk on arrival. -/
theorem Joined.read {c : Ledger (PendingRecord C V)} (h : Joined a rec c) :
    ∃ b, a.MayClose b ∧ (b.read rec).MayClose { c with fed := a.fed ++ [rec] } := by
  obtain ⟨b, hb, hc⟩ := h
  refine ⟨b, hb, ?_⟩
  rw [← hb.frame.2.2.1]
  rcases hc with rfl | rfl
  · exact Or.inl rfl
  · exact Or.inr rfl

/-- The counter of the run summary goes with the units. -/
theorem Follows.countUnits {step : Ledger (PendingRecord C V) → Prop}
    (h : Follows cfg s emitted since rec step (.ok units s')) (n : ℕ) :
    Follows cfg s emitted since rec step (.ok units (s'.countUnits n)) := by
  obtain ⟨b, hb, h'⟩ := h
  exact ⟨b, hb, h'.congr rfl rfl rfl rfl rfl⟩

/-- What a streaming record does once the waiting rows have been released. -/
def Settled (a : Ledger (PendingRecord C V)) (r : PendingRecord C V)
    (c : Ledger (PendingRecord C V)) : Prop :=
  ∃ b, Streamed a.close r b ∧
    (b.txn.isSome ∧ c = b ∨ b.txn = none ∧ Relation.ReflTransGen Ledger.Late b c ∧ c.deferred = [])

/-- Where nothing waits, nothing is released. -/
theorem late_eq_of_deferred {c : Ledger (PendingRecord C V)}
    (h : Relation.ReflTransGen Ledger.Late b c) (hd : b.deferred = []) : c = b := by
  rcases Relation.ReflTransGen.cases_head h with heq | ⟨d, hlate, -⟩
  · exact heq.symm
  · cases hlate with
    | release _ hmay hdef _ =>
      rw [hmay.frame.2.1, hd] at hdef
      cases hdef

theorem Settled.round {c : Ledger (PendingRecord C V)} (h : Settled a rec c) (hquiet : a.Quiet) :
    Ledger.Round PendingRecord.isEvent a rec c := by
  obtain ⟨b, hstream, hafter⟩ := h
  cases hstream with
  | begin htxn hr =>
    rcases hafter with ⟨-, rfl⟩ | ⟨hnone, -, -⟩
    · exact .begin htxn (hquiet.settled htxn) hr
    · cases hnone
  | push hr =>
    rcases hafter with ⟨-, rfl⟩ | ⟨hnone, -, -⟩
    · exact .push hr
    · cases hnone
  | carry htxn hr _ =>
    rcases hafter with ⟨-, rfl⟩ | ⟨hnone, -, -⟩
    · exact .carry htxn hr
    · obtain ⟨p, hp⟩ := Option.isSome_iff_exists.1 htxn
      simp [Ledger.carry, hp] at hnone
  | single htxn =>
    rcases hafter with ⟨hsome, -⟩ | ⟨-, hlate, -⟩
    · rw [show (a.close.single PendingRecord.isEvent rec).txn = none from htxn] at hsome
      cases hsome
    · have hd : a.deferred = [] := hquiet.settled htxn
      rw [late_eq_of_deferred hlate hd]
      exact .single htxn hd
  | complete htxn hkind =>
    rcases hafter with ⟨hsome, -⟩ | ⟨-, hlate, hd⟩
    · cases hsome
    · rw [Ledger.close_eq_self (hquiet.exclusive htxn)] at hlate
      exact .complete htxn (by simp [PendingRecord.isEvent, hkind]) hlate hd

/-- The open transaction ends with its END. -/
theorem Settled.txn_eq_none {c : Ledger (PendingRecord C V)} (h : Settled a rec c)
    (htxn : a.txn.isSome) : c.txn = none ↔ rec.kind = .txnEnd := by
  obtain ⟨p, hp⟩ := Option.isSome_iff_exists.1 htxn
  obtain ⟨b, hstream, hafter⟩ := h
  have hkept : b.txn.isSome → (c.txn = none ↔ b.txn = none) := by
    intro hsome
    rcases hafter with ⟨-, rfl⟩ | ⟨hnone, -, -⟩
    · rfl
    · rw [hnone] at hsome
      cases hsome
  cases hstream with
  | begin hnone _ =>
    rw [show a.txn = none from hnone] at hp
    cases hp
  | push hr =>
    rw [hkept rfl]
    refine iff_of_false (Option.some_ne_none _) fun hend => ?_
    simp [PendingRecord.isEvent, hend] at hr
  | carry _ _ hkind =>
    have hsome : (a.close.carry rec).txn = some (p.carry rec) := by
      simp [Ledger.carry, Ledger.close, hp]
    rw [hkept (by rw [hsome]; rfl), hsome]
    exact iff_of_false (Option.some_ne_none _) hkind
  | single hnone =>
    rw [show a.txn = none from hnone] at hp
    cases hp
  | complete _ hkind =>
    rcases hafter with ⟨hsome, -⟩ | ⟨-, hlate, -⟩
    · cases hsome
    · exact iff_of_true (Ledger.late_frame hlate rfl).1 hkind

/-- What an accepted input does: a round of the ledger, in which the open transaction ends with its
END only. -/
structure Advances (a : Ledger (PendingRecord C V)) (rec : PendingRecord C V)
    (b : Ledger (PendingRecord C V)) : Prop where
  round : a.Quiet → Ledger.Round PendingRecord.isEvent a rec b
  ends : a.txn.isSome → (b.txn = none ↔ rec.kind = .txnEnd)

namespace Tracks

theorem follows_stream (h : Tracks cfg s emitted since a) (hkind : rec.kind ≠ .snapshot) :
    Follows cfg s emitted since rec (Settled a rec)
      ((do
        let closed ← closeChunk true
        let units ← feedStream cfg rec
        let released ← releaseDeferred cfg
        pure (closed ++ units ++ released) :
        Assemble C V (List (CompleteUnit C V))).run s) := by
  simp only [EStateM.run_bind, run_closeChunk]
  have hstream := (h.close true).follows_feedStream rfl hkind
  cases hrun : (feedStream cfg rec).run (s.setChunk none) with
  | error refusal s₁ =>
    rw [hrun] at hstream
    obtain ⟨b, h₁⟩ := hstream
    obtain ⟨c, -, h₂⟩ := h₁.forgetUnits
    exact ⟨c, h₂⟩
  | ok units s₁ =>
    rw [hrun] at hstream
    obtain ⟨b, hb, h₁⟩ := hstream
    simp only [releaseDeferred, EStateM.run_bind, EStateM.run_get]
    cases ht : s₁.txn with
    | some t =>
      refine ⟨b, ⟨b, hb, Or.inl ⟨?_, rfl⟩⟩, ?_⟩
      · obtain ⟨p, hp, -⟩ := h₁.exists_txn ht
        simp [hp]
      · rw [List.append_nil, ← List.append_assoc]
        exact h₁
    | none =>
      rw [if_pos (by simp)]
      have hbt := h₁.txn_eq_none.1 ht
      have hflush := (h₁.of_txn_none ht []).lands_flush hbt s₁.deferredSnapshots h₁.deferred.eq.symm
      cases hmore : (flushDeferredSnapshots cfg s₁.deferredSnapshots).run s₁ with
      | error refusal s₂ =>
        rw [hmore] at hflush
        obtain ⟨c, hct, h₂⟩ := hflush
        obtain ⟨d, hdt, h₃⟩ := h₂.forgetUnits
        obtain ⟨e, het, h₄⟩ := h₃.forgetUnits
        refine ⟨e, ?_⟩
        rwa [nextSince_of_none (h₄.txn_eq_none.2 (het.trans (hdt.trans hct)))]
      | ok more s₂ =>
        rw [hmore] at hflush
        obtain ⟨c, ⟨hlate, hnil⟩, hct, h₂⟩ := hflush
        refine ⟨c, ⟨b, hb, Or.inr ⟨hbt, hlate, hnil⟩⟩, ?_⟩
        rw [nextSince_of_none (h₂.txn_eq_none.2 hct)]
        simpa [List.append_assoc] using h₂

/-- **Feeding a record.** -/
theorem follows_feed (h : Tracks cfg s emitted since a) :
    Follows cfg s emitted since rec (Advances a rec) ((feed cfg rec).run s) := by
  unfold feed
  by_cases hkind : rec.kind = .snapshot
  · have hevent : rec.isEvent := by simp [PendingRecord.isEvent, hkind]
    rw [if_pos hkind]
    simp only [EStateM.run_bind, EStateM.run_get]
    cases ht : s.txn with
    | some t =>
      obtain ⟨p, hp, htracks⟩ := h.exists_txn ht
      rw [if_pos (by simp)]
      split_ifs with hmode
      · exact h.follows_raise _ _
      · refine ⟨a.defer rec, ⟨fun _ => .defer (by simp [hp]) hevent,
          fun _ => iff_of_false (by simp [Ledger.defer, hp]) (by simp [hkind])⟩, ?_⟩
        rw [List.append_nil]
        have h' := h.ignore rec
        refine Tracks.arrive (a := { a with deferred := a.deferred ++ [rec] }) ?_ _
        exact ⟨by simpa [nextSince, Assembler.setDeferred] using h'.txn, h.chunk,
          ⟨congrArg (· ++ [rec]) h.deferred.eq, List.forall_mem_append.2
            ⟨h.deferred.rows, List.forall_mem_singleton.2 hkind⟩⟩,
            h.exclusive, h.units, h.seqs_nodup, h.seqs_le,
          h.calls_le, h.owned⟩
    | none =>
      rw [if_neg (by simp)]
      have hat := h.txn_eq_none.1 ht
      have hland := (h.of_txn_none ht []).lands_feedSnapshot hat rec
      have hfollows : Follows cfg s emitted since rec (Advances a rec)
          ((feedSnapshot cfg rec).run s) := by
        refine hland.follows (a.fed ++ [rec]) fun c hjoin =>
          ⟨fun hquiet => ?_, fun hsome => by simp [hat] at hsome⟩
        obtain ⟨b, hb, hc⟩ := hjoin.read
        exact .read hat (hquiet.settled hat) hevent hb hc
      simp only [EStateM.run_bind]
      cases hrun : (feedSnapshot cfg rec).run s with
      | error refusal s₁ =>
        rw [hrun] at hfollows
        exact hfollows
      | ok units s₁ =>
        rw [hrun] at hfollows
        exact hfollows.countUnits _
  · rw [if_neg hkind]
    have hstream := h.follows_stream hkind
    simp only [EStateM.run_bind, run_closeChunk] at hstream ⊢
    cases hrun : (feedStream cfg rec).run (s.setChunk none) with
    | error refusal s₁ =>
      rw [hrun] at hstream
      exact hstream
    | ok units s₁ =>
      rw [hrun] at hstream
      dsimp only at hstream ⊢
      cases hmore : (releaseDeferred cfg).run s₁ with
      | error refusal s₂ =>
        rw [hmore] at hstream
        exact hstream
      | ok more s₂ =>
        rw [hmore] at hstream
        obtain ⟨b, hb, h'⟩ := hstream
        exact ⟨b, ⟨hb.round, hb.txn_eq_none⟩, h'.congr rfl rfl rfl rfl rfl⟩

/-- **The end of a snapshot.** -/
theorem follows_feedSnapshotBoundary (h : Tracks cfg s emitted since a) :
    Follows cfg s emitted since rec (Advances a rec) ((feedSnapshotBoundary rec).run s) := by
  unfold feedSnapshotBoundary
  simp only [EStateM.run_bind, EStateM.run_get]
  by_cases hkind : rec.kind ≠ .snapshotBoundary ∨ rec.raw.isSome
  · rw [if_pos hkind]
    exact h.follows_raise _ _
  · rw [if_neg hkind]
    have hevent : rec.isEvent = false := by
      simp [PendingRecord.isEvent, not_not.1 (not_or.1 hkind).1]
    cases ht : s.txn with
    | some t => exact h.follows_raise _ _
    | none =>
      have hat := h.txn_eq_none.1 ht
      rw [if_neg (by simp)]
      simp only [EStateM.run_bind, run_closeChunk]
      refine ⟨_, ⟨fun hquiet => .single hat (hquiet.settled hat), fun hsome => by
        simp [hat] at hsome⟩, ?_⟩
      rw [← List.append_assoc]
      exact (((h.close true).single (controlUnit_tracks cfg _ hevent) rfl).of_txn_none ht
        _).congr rfl rfl rfl rfl rfl

end Tracks

/-- A record with the entry point it goes to. -/
inductive Input (C V : Type)
  | record (rec : PendingRecord C V)
  | boundary (rec : PendingRecord C V)

namespace Input

/-- The record that is handed over. -/
def pending : Input C V → PendingRecord C V
  | record r => r
  | boundary r => r

/-- What the assembler does with it. -/
def feed (cfg : AssemblerConfig C V) : Input C V → Assemble C V (List (CompleteUnit C V))
  | record r => CdcFlight.feed cfg r
  | boundary r => feedSnapshotBoundary r

end Input

namespace Tracks

theorem init (cfg : AssemblerConfig C V) : Tracks cfg {} [] [] {} where
  txn := .none
  chunk := .none
  deferred := ⟨rfl, List.forall_mem_nil _⟩
  exclusive hsome := by cases hsome
  units := .nil
  seqs_nodup := List.nodup_nil
  seqs_le := List.forall_mem_nil _
  calls_le := List.forall_mem_nil _
  owned _ := List.forall_mem_nil _

/-- **Every input keeps the assembler and its ledger together.** -/
theorem follows_input (h : Tracks cfg s emitted since a) (input : Input C V) :
    Follows cfg s emitted since input.pending (Advances a input.pending)
      ((input.feed cfg).run s) := by
  cases input with
  | record r => exact h.follows_feed
  | boundary r => exact h.follows_feedSnapshotBoundary

end Tracks

end CdcFlight
