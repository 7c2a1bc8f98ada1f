import CdcFlight.Assembler.Conservation

/-!
# What an acknowledgement passes

The last record of a unit is acknowledged with it, so every event fed before that record should be
in the unit or in one emitted before it. Snapshot rows that arrive inside a transaction are held
back until its END and then join a chunk, which is emitted after the END: acknowledging the
transaction passes them. This is the only way an event is passed.

## Main definitions

* `CdcFlight.arrivals`: inputs, each with a source offset of its own.
* `CdcFlight.AcksInOrder`: no emitted unit leaves an earlier event behind.
* `CdcFlight.NoneWaits`: no snapshot row waits where a transaction ends.

## Main results

* `CdcFlight.acksInOrder_iff`: an accepted feed acknowledges in order exactly when no snapshot row
  waits where a transaction ends.
-/

namespace CdcFlight

open Lib

variable {C V : Type} {cfg : AssemblerConfig C V} {s s' : Assembler C V}
  {units : List (CompleteUnit C V)} {since : List (PendingRecord C V)}
  {a : Ledger (PendingRecord C V)} {calls : List (SpillCall C V)}

/-! ### Arrivals -/

/-- The input, with the source offset of its record. -/
def Input.stamp (offset : ℕ) : Input C V → Input C V
  | .record r => .record { r with sourceOffset := some offset }
  | .boundary r => .boundary { r with sourceOffset := some offset }

/-- The inputs as they arrive: each record has a source offset of its own. -/
def arrivals (inputs : List (Input C V)) : List (Input C V) :=
  inputs.mapIdx fun offset input => input.stamp offset

theorem nodup_origin_arrivals (inputs : List (Input C V)) :
    (((arrivals inputs).map Input.pending).map PendingRecord.origin).Nodup := by
  refine List.Nodup.of_map PendingRecord.sourceOffset ?_
  have hoffsets : ((((arrivals inputs).map Input.pending).map PendingRecord.origin).map
      PendingRecord.sourceOffset) = (List.range inputs.length).map some := by
    refine List.ext_getElem (by simp [arrivals]) fun i hi hi' => ?_
    have hlen : i < inputs.length := by simpa using hi'
    simp only [arrivals, List.getElem_map, List.getElem_mapIdx, List.getElem_range]
    cases inputs[i] <;> rfl
  rw [hoffsets]
  exact List.nodup_range.map fun _ _ => Option.some.inj

/-! ### Acknowledgement -/

/-- A unit carries an event, or has counted and discarded it. -/
def Belongs (cfg : AssemblerConfig C V) (calls : List (SpillCall C V)) (u : CompleteUnit C V)
    (e : PendingRecord C V) : Prop :=
  e.origin ∈ (staged calls u.spillUnitSeq ++ u.events).map PendingRecord.origin ∨
    cfg.discardStreaming = true ∧ u.kind = .txn ∧
      ∃ txnId, u.txnId = some txnId ∧ e.Counted txnId

/-- **No acknowledgement past held events.** Every event fed before the last record of an emitted
unit belongs to that unit or to one emitted before it. -/
def AcksInOrder (cfg : AssemblerConfig C V) (fed : List (PendingRecord C V))
    (units : List (CompleteUnit C V)) (calls : List (SpillCall C V)) : Prop :=
  ∀ (i : ℕ) (u : CompleteUnit C V) (last : PendingRecord C V), units[i]? = some u →
    u.records.getLast? = some last → ∀ e : PendingRecord C V, e.isEvent →
      [e.origin, last.origin].Sublist (fed.map PendingRecord.origin) →
        ∃ j ≤ i, ∃ v, units[j]? = some v ∧ Belongs cfg calls v e

/-- No snapshot row waits where a transaction ends: at every END record of an accepted feed that
meets an open transaction, the queue of snapshot rows that came in between is empty. -/
def NoneWaits (cfg : AssemblerConfig C V) (inputs : List (Input C V)) : Prop :=
  ∀ before input after, inputs = before ++ input :: after → input.pending.kind = .txnEnd →
    ∀ units s, (feedAll cfg before).run {} = .ok units s → s.txn.isSome →
      s.deferredSnapshots = []

/-! ### Units and their parcels -/

theorem Keeps.getLast? {records all : List (PendingRecord C V)} (h : Keeps cfg records all) :
    records.getLast?.map PendingRecord.origin = all.getLast?.map PendingRecord.origin := by
  have hlast := congrArg List.getLast? h
  rw [List.getLast?_map, List.getLast?_map] at hlast
  rw [hlast]
  split_ifs
  · rfl
  · cases all.getLast? <;> rfl

private theorem forall₂_getElem? {α β : Type} {R : α → β → Prop} {l : List α} {m : List β}
    (h : List.Forall₂ R l m) {i : ℕ} : Option.Rel R l[i]? m[i]? := by
  induction h generalizing i with
  | nil => exact .none
  | cons hab _ ih =>
    cases i with
    | zero => exact .some hab
    | succ i => exact ih

namespace Tracks

theorem exists_parcel (h : Tracks cfg s units since a) {i : ℕ} {u : CompleteUnit C V}
    (hu : units[i]? = some u) :
    ∃ p, a.units[i]? = some p ∧ TracksUnit cfg s.spillCalls u p := by
  have hrel := forall₂_getElem? h.units (i := i)
  rw [hu] at hrel
  generalize a.units[i]? = p at hrel
  cases hrel with
  | some hup => exact ⟨_, rfl, hup⟩

theorem exists_unit (h : Tracks cfg s units since a) {i : ℕ} {p : Parcel (PendingRecord C V)}
    (hp : a.units[i]? = some p) :
    ∃ u, units[i]? = some u ∧ TracksUnit cfg s.spillCalls u p := by
  have hrel := forall₂_getElem? h.units (i := i)
  rw [hp] at hrel
  generalize units[i]? = u at hrel
  cases hrel with
  | some hup => exact ⟨_, rfl, hup⟩

end Tracks

theorem PendingRecord.counted_of_origin {e e' : PendingRecord C V} (h : e.origin = e'.origin)
    {txnId : String} (he : e.Counted txnId) : e'.Counted txnId := by
  have hid : e.origin.txnId = e'.origin.txnId := by rw [h]
  have hkind : e.origin.kind = e'.origin.kind := by rw [h]
  have horder : e.origin.totalOrder = e'.origin.totalOrder := by rw [h]
  change e.txnId = e'.txnId at hid
  change e.kind = e'.kind at hkind
  change e.totalOrder = e'.totalOrder at horder
  have hordinal : e.ordinal = e'.ordinal := by rw [ordinal, ordinal, horder]
  exact ⟨hid ▸ he.txnId, hkind ▸ he.kind, by rw [← horder, ← hordinal]; exact he.order,
    hordinal ▸ he.one_le⟩

theorem PendingRecord.isEvent_of_origin {e e' : PendingRecord C V} (h : e.origin = e'.origin) :
    e.isEvent = e'.isEvent := by
  have hkind : e.origin.kind = e'.origin.kind := by rw [h]
  change e.kind = e'.kind at hkind
  rw [isEvent, isEvent, hkind]

/-- An event of a parcel belongs to its unit. -/
theorem TracksUnit.belongs {u : CompleteUnit C V} {p : Parcel (PendingRecord C V)}
    (h : TracksUnit cfg calls u p) {e e' : PendingRecord C V} (he : e ∈ p.events)
    (heq : e.origin = e'.origin) : Belongs cfg calls u e' := by
  have hheld := h.held
  unfold Holds at hheld
  split_ifs at hheld with hdiscard
  · simp only [Bool.and_eq_true, decide_eq_true_eq] at hdiscard
    obtain ⟨txnId, hid, hcount⟩ := h.streamed hdiscard.1 e he
    exact Or.inr ⟨hdiscard.2, hdiscard.1, txnId, hid, PendingRecord.counted_of_origin heq hcount⟩
  · refine Or.inl ?_
    rw [hheld.1, ← heq]
    exact List.mem_map_of_mem he

/-- A snapshot row that belongs to a unit is an event of its parcel. -/
theorem TracksUnit.exists_of_belongs {u : CompleteUnit C V} {p : Parcel (PendingRecord C V)}
    (h : TracksUnit cfg calls u p) {e : PendingRecord C V} (hkind : e.kind = .snapshot)
    (he : Belongs cfg calls u e) : ∃ e' ∈ p.events, e'.origin = e.origin := by
  rcases he with he | ⟨-, -, txnId, -, hcount⟩
  · have hheld := h.held
    unfold Holds at hheld
    split_ifs at hheld
    · obtain ⟨hevents, -, hseq⟩ := hheld
      simp [hevents, hseq, staged] at he
    · rw [hheld.1] at he
      exact List.mem_map.1 he
  · rcases hcount.kind with hk | hk | hk <;> rw [hkind] at hk <;> cases hk

namespace Tracks

/-- A ledger that is safe makes the assembler acknowledge in order. -/
theorem acksInOrder (h : Tracks cfg s units since a) (hsafe : a.AckSafe PendingRecord.isEvent)
    (hbalanced : a.Balanced PendingRecord.isEvent)
    (hnodup : (a.fed.map PendingRecord.origin).Nodup) :
    AcksInOrder cfg a.fed units s.spillCalls := by
  intro i u last hu hlast e he hsub
  obtain ⟨p, hp, hup⟩ := h.exists_parcel hu
  have hkept := hup.records.getLast?
  rw [hlast, Option.map_some] at hkept
  obtain ⟨last', hlast', hlasteq⟩ := Option.map_eq_some_iff.1 hkept.symm
  obtain ⟨l, hl, hleq⟩ := List.sublist_map_iff.1 hsub
  obtain ⟨e', y, rfl⟩ : ∃ e' y, l = [e', y] := by
    have hlen := congrArg List.length hleq
    rw [List.length_map] at hlen
    exact List.length_eq_two.1 hlen.symm
  simp only [List.map_cons, List.map_nil, List.cons.injEq, and_true] at hleq
  have hylast : y = last' := by
    refine List.inj_on_of_nodup_map hnodup (hl.subset (by simp)) ?_ (hleq.2.symm.trans hlasteq.symm)
    exact hbalanced.mem_fed_of_records (List.mem_of_getElem? hp) (List.mem_of_getLast? hlast')
  subst hylast
  have hin := hsafe i p y hp hlast' e' ((PendingRecord.isEvent_of_origin hleq.1.symm).trans he) hl
  obtain ⟨q, hq, heq⟩ := List.mem_flatMap.1 hin
  obtain ⟨j, hj⟩ := List.getElem?_of_mem hq
  rw [List.getElem?_take] at hj
  split_ifs at hj with hji
  obtain ⟨v, hv, hvq⟩ := h.exists_unit hj
  exact ⟨j, Nat.le_of_lt_succ hji, v, hv, hvq.belongs heq hleq.1.symm⟩

/-- Where the assembler acknowledges in order, the ledger passes no snapshot row. -/
theorem ackSafe_rows (h : Tracks cfg s units since a)
    (hacks : AcksInOrder cfg a.fed units s.spillCalls)
    (hbalanced : a.Balanced PendingRecord.isEvent)
    (hnodup : (a.fed.map PendingRecord.origin).Nodup) :
    a.AckSafe fun e => e.kind = .snapshot := by
  intro i p last hp hlast e he hsub
  have hkind : e.kind = .snapshot := by simpa using he
  obtain ⟨u, hu, hup⟩ := h.exists_unit hp
  have hkept := hup.records.getLast?
  rw [hlast, Option.map_some] at hkept
  obtain ⟨last', hlast', hlasteq⟩ := Option.map_eq_some_iff.1 hkept
  obtain ⟨j, hj, v, hv, hbelongs⟩ := hacks i u last' hu hlast' e
    (by simp [PendingRecord.isEvent, hkind]) (by
      rw [hlasteq]
      exact hsub.map _)
  obtain ⟨q, hq, hvq⟩ := h.exists_parcel hv
  obtain ⟨e', he', heq⟩ := hvq.exists_of_belongs hkind hbelongs
  have hmem : q ∈ a.units := List.mem_of_getElem? hq
  have hsame : e' = e := List.inj_on_of_nodup_map hnodup
    ((hbalanced.sublist_of_mem_units hmem).subset he') (hsub.subset (by simp)) heq
  subst hsame
  refine List.mem_flatMap.2 ⟨q, List.mem_of_getElem? (i := j) ?_, he'⟩
  rw [List.getElem?_take, if_pos (Nat.lt_succ_of_le hj), hq]

end Tracks

/-! ### Accepted feeds -/

theorem feedAll_append {l m : List (Input C V)}
    (hrun : (feedAll cfg (l ++ m)).run s = .ok units s') :
    ∃ first s₁ second, (feedAll cfg l).run s = .ok first s₁ ∧
      (feedAll cfg m).run s₁ = .ok second s' ∧ units = first ++ second := by
  induction l generalizing s units with
  | nil => exact ⟨[], s, units, rfl, hrun, rfl⟩
  | cons input rest ih =>
    obtain ⟨us, s₁, hinput, hrun⟩ := run_bind_eq_ok.1 hrun
    obtain ⟨more, s₂, hrest, hrun⟩ := run_bind_eq_ok.1 hrun
    cases hrun
    obtain ⟨first, s₃, second, hfirst, hsecond, rfl⟩ := ih hrest
    refine ⟨us ++ first, s₃, second, ?_, hsecond, (List.append_assoc _ _ _).symm⟩
    exact run_bind_eq_ok.2 ⟨us, s₁, hinput, run_bind_eq_ok.2 ⟨first, s₃, hfirst, rfl⟩⟩

theorem feedAll_cons {input : Input C V} {rest : List (Input C V)}
    (hrun : (feedAll cfg (input :: rest)).run s = .ok units s') :
    ∃ first s₁ second, (input.feed cfg).run s = .ok first s₁ ∧
      (feedAll cfg rest).run s₁ = .ok second s' ∧ units = first ++ second := by
  obtain ⟨first, s₁, hfirst, hrun⟩ := run_bind_eq_ok.1 hrun
  obtain ⟨second, s₂, hsecond, hrun⟩ := run_bind_eq_ok.1 hrun
  cases hrun
  exact ⟨first, s₁, second, hfirst, hsecond, rfl⟩

/-- Where no row waits at the end of a transaction, the ledger is safe all along. -/
theorem exists_ackSafe {inputs : List (Input C V)}
    (hnodup : ((inputs.map Input.pending).map PendingRecord.origin).Nodup)
    (hwaits : NoneWaits cfg inputs) (hrun : (feedAll cfg inputs).run {} = .ok units s) :
    ∃ a since, Tracks cfg s units since a ∧ a.Quiet ∧ a.Balanced PendingRecord.isEvent ∧
      a.fed = inputs.map Input.pending ∧ a.AckSafe PendingRecord.isEvent := by
  induction inputs using List.reverseRecOn generalizing units s with
  | nil =>
    cases hrun
    exact ⟨{}, [], Tracks.init cfg, Ledger.Quiet.init, Ledger.Balanced.init, rfl,
      fun i p last hp => by simp at hp⟩
  | append_singleton before input ih =>
    obtain ⟨first, s₁, second, hfirst, hsecond, rfl⟩ := feedAll_append hrun
    obtain ⟨us, s₂, more, hinput, hmore, rfl⟩ := feedAll_cons hsecond
    cases hmore
    rw [List.map_append, List.map_append] at hnodup
    have hbefore : NoneWaits cfg before := by
      rintro l x m rfl hkind
      exact hwaits l x (m ++ [input]) (by simp) hkind
    obtain ⟨a, since, h, hquiet, hbalanced, hfed, hsafe⟩ :=
      ih hnodup.of_append_left hbefore hfirst
    have hfollows := h.follows_input input
    rw [hinput] at hfollows
    obtain ⟨b, hadvance, h'⟩ := hfollows
    have hround := hadvance.round hquiet
    have hbfed : b.fed = (before ++ [input]).map Input.pending := by
      rw [hround.fed_eq, hfed, List.map_append, List.map_singleton]
    refine ⟨b, _, by rwa [List.append_nil], hround.quiet hquiet, hround.balanced hbalanced, hbfed,
      hround.ackSafe hbalanced hquiet hsafe ?_ fun htxn hnone => ?_⟩
    · rw [← List.map_append, ← List.map_append] at hnodup
      rw [hbfed]
      exact hnodup.of_map _
    · rw [← h.deferred.eq]
      refine hwaits before input [] rfl ((hadvance.ends htxn).1 hnone) first s₁ hfirst ?_
      rw [Option.isSome_iff_ne_none, Ne, h.txn_eq_none]
      exact Option.isSome_iff_ne_none.1 htxn

/-- Rounds only add to what was fed and emitted. -/
theorem Ledger.prefix_of_trace {R : Type} {isEvent : R → Bool} {a b : Ledger R} {rs : List R}
    (h : Trace (Ledger.Round isEvent) a rs b) : a.units <+: b.units ∧ a.fed <+: b.fed := by
  induction h with
  | nil _ => exact ⟨List.prefix_rfl, List.prefix_rfl⟩
  | cons hround _ ih =>
    refine ⟨hround.units_prefix.trans ih.1, List.IsPrefix.trans ?_ ih.2⟩
    rw [hround.fed_eq]
    exact List.prefix_append _ _

/-- **An accepted feed acknowledges in order exactly when no snapshot row waits where a transaction
ends.** -/
theorem acksInOrder_iff (cfg : AssemblerConfig C V) (inputs : List (Input C V))
    (hrun : (feedAll cfg (arrivals inputs)).run {} = .ok units s) :
    AcksInOrder cfg ((arrivals inputs).map Input.pending) units s.spillCalls ↔
      NoneWaits cfg (arrivals inputs) := by
  have hnodup := nodup_origin_arrivals inputs
  constructor
  · intro hacks before input after heq hend units₀ s₀ hbefore htxn
    rw [heq] at hrun hacks hnodup
    obtain ⟨first, s₁, second, hfirst, hsecond, rfl⟩ := feedAll_append hrun
    rw [hbefore] at hfirst
    cases hfirst
    obtain ⟨us, s₂, more, hinput, hmore, rfl⟩ := feedAll_cons hsecond
    obtain ⟨a, since, htrace, hquiet, h⟩ :=
      (Tracks.init cfg).feedAll Ledger.Quiet.init hbefore
    obtain ⟨hbalanced, hfed, -⟩ := Ledger.balanced_of_trace htrace Ledger.Balanced.init
    have hfollows := h.follows_input input
    rw [hinput] at hfollows
    obtain ⟨b, hadvance, h₁⟩ := hfollows
    have hround := hadvance.round hquiet
    obtain ⟨z, since', htrace', -, h₂⟩ := h₁.feedAll (hround.quiet hquiet) hmore
    obtain ⟨hbalanced', hfed', -⟩ :=
      Ledger.balanced_of_trace htrace' (hround.balanced hbalanced)
    obtain ⟨hunits, hstart⟩ := Ledger.prefix_of_trace htrace'
    have hzfed : z.fed = (before ++ input :: after).map Input.pending := by
      rw [hfed', hround.fed_eq, hfed]
      simp
    rw [← hzfed] at hacks hnodup
    have hatxn : a.txn.isSome := by
      rw [Option.isSome_iff_ne_none, Ne, ← h.txn_eq_none]
      exact Option.isSome_iff_ne_none.1 htxn
    rw [h.deferred.eq]
    refine hround.deferred_eq_nil hbalanced hatxn ((hadvance.ends hatxn).2 hend) hunits hstart
      ((hnodup.of_map _).sublist hstart.sublist) (fun d hd => ?_)
      (Tracks.ackSafe_rows (by simpa using h₂) hacks hbalanced' hnodup)
    simpa using h.deferred.rows d hd
  · intro hwaits
    obtain ⟨a, since, h, -, hbalanced, hfed, hsafe⟩ := exists_ackSafe hnodup hwaits hrun
    rw [← hfed] at hnodup ⊢
    exact h.acksInOrder hsafe hbalanced hnodup

namespace Accounts

/-- An assembler that admits incremental snapshots. -/
def admitting : AssemblerConfig Column String := { incrementalEnabled := true }

/-- A row of an incremental snapshot arrives inside a transaction. -/
def passed : List (Input Column String) :=
  arrivals ([begins "7", changes "7" 1, backfills, ends "7" 1].map .record)

theorem passed_iff : ∃ units s, (feedAll admitting passed).run {} = .ok units s ∧
    (AcksInOrder admitting (passed.map Input.pending) units s.spillCalls ↔
      NoneWaits admitting passed) := by
  obtain ⟨units, s, hrun⟩ := exists_of_returns (m := feedAll admitting passed) (s := {})
    (by rfl)
  exact ⟨units, s, hrun, acksInOrder_iff admitting _ hrun⟩

theorem passed_not_acksInOrder : ∃ units s, (feedAll admitting passed).run {} = .ok units s ∧
    ¬ AcksInOrder admitting (passed.map Input.pending) units s.spillCalls := by
  refine ⟨_, _, rfl, fun hacks => ?_⟩
  obtain ⟨j, hj, v, hv, hbelongs⟩ := hacks 0 _ _ rfl rfl
    { backfills with sourceOffset := some 2 } rfl
    (.cons _ (.cons _ (.cons_cons _ (.cons_cons _ (List.nil_sublist _)))))
  obtain rfl : j = 0 := Nat.le_zero.1 hj
  cases hv
  rcases hbelongs with hmem | ⟨hdiscard, -⟩
  · have hkind := List.mem_map_of_mem (f := PendingRecord.kind) hmem
    revert hkind
    decide
  · cases hdiscard

end Accounts

end CdcFlight
