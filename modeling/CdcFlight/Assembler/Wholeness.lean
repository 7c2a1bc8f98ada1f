import CdcFlight.Assembler.Refine
import CdcFlight.Source.Records

/-!
# Whole transactions

A transaction is emitted at its END only, and only when the counters kept along the way agree with
what END declares. The counters are those of the parcel the open transaction stores, so the events
of the unit are the whole transaction, wherever they are stored and whatever the assembler was fed
and refused before.

## Main definitions

* `CdcFlight.Session`: a run in which the feed goes on after a raise.
* `CdcFlight.Whole`: what is proven about a transaction at its END.

## Main results

* `CdcFlight.verifyComplete_ok`: what the boundary rule proves.
* `CdcFlight.Session.transactions_whole`: every transaction that is emitted is whole.
-/

namespace CdcFlight

open Lib

variable {C V : Type} {cfg : AssemblerConfig C V} {s s' : Assembler C V}
  {units : List (CompleteUnit C V)} {rec : PendingRecord C V} {u : CompleteUnit C V}

/-! ### Where transactions are emitted -/

theorem makeRoom_kind {s s' : Assembler C V} (hrun : (makeRoom rec).run s = .ok units s') :
    ∀ u ∈ units, u.kind = .snapshotChunk := by
  have hclosed (c : Option (OpenChunk C V)) (b : Bool) :
      ∀ u ∈ c.toList.map (·.unit b), u.kind = .snapshotChunk := by
    intro u hu
    obtain ⟨c, -, rfl⟩ := List.mem_map.1 hu
    rfl
  unfold makeRoom at hrun
  simp only [EStateM.run_bind, EStateM.run_get] at hrun
  split at hrun
  · cases hrun
    simp
  · split_ifs at hrun
    · rw [run_closeChunk] at hrun
      cases hrun
      exact hclosed _ _
    · rw [run_closeChunk] at hrun
      cases hrun
      exact hclosed _ _
    · cases hrun
      simp

theorem feedSnapshot_kind (hrun : (feedSnapshot cfg rec).run s = .ok units s') :
    ∀ u ∈ units, u.kind = .snapshotChunk := by
  unfold feedSnapshot at hrun
  simp only [EStateM.run_bind, EStateM.run_get] at hrun
  split_ifs at hrun
  · cases hrun
  · cases hrun
  · obtain ⟨before, s₁, hroom, hrun⟩ := run_bind_eq_ok.1 hrun
    have hbefore := makeRoom_kind hroom
    obtain ⟨-, s₂, -, hrun⟩ := run_bind_eq_ok.1 hrun
    obtain ⟨-, s₃, -, hrun⟩ := run_bind_eq_ok.1 hrun
    simp only [EStateM.run_bind, EStateM.run_get] at hrun
    split_ifs at hrun
    · simp only [EStateM.run_bind, run_closeChunk, EStateM.run_pure] at hrun
      cases hrun
      intro u hu
      rcases List.mem_append.1 hu with hu | hu
      · exact hbefore u hu
      · obtain ⟨c, -, rfl⟩ := List.mem_map.1 hu
        rfl
    · cases hrun
      exact hbefore

theorem flushDeferredSnapshots_kind (waiting : List (PendingRecord C V))
    (hrun : (flushDeferredSnapshots cfg waiting).run s = .ok units s') :
    ∀ u ∈ units, u.kind = .snapshotChunk := by
  induction waiting generalizing s units with
  | nil =>
    cases hrun
    simp
  | cons r rest ih =>
    simp only [flushDeferredSnapshots] at hrun
    obtain ⟨-, s₁, -, hrun⟩ := run_bind_eq_ok.1 hrun
    obtain ⟨before, s₂, hfirst, hrun⟩ := run_bind_eq_ok.1 hrun
    obtain ⟨more, s₃, hrest, hrun⟩ := run_bind_eq_ok.1 hrun
    cases hrun
    intro u hu
    rcases List.mem_append.1 hu with hu | hu
    · exact feedSnapshot_kind hfirst u hu
    · exact ih hrest u hu

/-- A counted event emits nothing. -/
theorem enterCounted_units {txnId : String} {order : ℤ} {changed : OpenTxn C V → String}
    {twice : String} {f : OpenTxn C V → OpenTxn C V}
    (hrun : (Tracks.enterCounted cfg txnId order changed twice f).run s = .ok units s') :
    units = [] := by
  obtain ⟨t, s₁, -, hrun⟩ := run_bind_eq_ok.1 hrun
  unfold enterTxn at hrun
  split_ifs at hrun
  · cases hrun
  · obtain ⟨-, s₂, -, hrun⟩ := run_bind_eq_ok.1 hrun
    cases hrun
    rfl
  · obtain ⟨-, s₂, -, hrun⟩ := run_bind_eq_ok.1 hrun
    obtain ⟨-, s₃, -, hrun⟩ := run_bind_eq_ok.1 hrun
    cases hrun
    rfl

theorem feedData_units (hrun : (feedData cfg rec).run s = .ok units s') : units = [] := by
  unfold feedData at hrun
  split at hrun
  · cases hrun
  · obtain ⟨order, s₁, -, hrun⟩ := run_bind_eq_ok.1 hrun
    exact enterCounted_units hrun

theorem feedControl_kind (hrun : (feedControl cfg rec).run s = .ok units s') :
    ∀ u ∈ units, u.kind ≠ .txn := by
  unfold feedControl at hrun
  split at hrun
  · unfold feedTransactionalMessage at hrun
    split at hrun
    · cases hrun
    · obtain ⟨order, s₁, -, hrun⟩ := run_bind_eq_ok.1 hrun
      rw [enterCounted_units hrun]
      simp
  · simp only [EStateM.run_bind, EStateM.run_get] at hrun
    split at hrun
    · split at hrun
      · cases hrun
      · cases hrun
        simp
    · cases hrun
      intro u hu
      rw [List.mem_singleton.1 hu]
      split_ifs <;> simp [messageUnit, controlUnit]

/-- The END of a transaction that is accepted. -/
structure Ends (cfg : AssemblerConfig C V) (s : Assembler C V) (rec : PendingRecord C V)
    (t : OpenTxn C V) (u : CompleteUnit C V) : Prop where
  txn : s.txn = some t
  txnId : rec.txnId = some t.txnId
  verified : verifyComplete (t.carry cfg rec) rec = .ok ()
  unit : u = (t.carry cfg rec).unit rec

theorem feedStream_txn (hrun : (feedStream cfg rec).run s = .ok units s') (hu : u ∈ units)
    (hkind : u.kind = .txn) : rec.kind = .txnEnd ∧ ∃ t, Ends cfg s rec t u := by
  unfold feedStream at hrun
  cases hk : rec.kind with
  | txnBegin =>
    simp only [hk, feedBegin, EStateM.run_bind, EStateM.run_get] at hrun
    split at hrun
    · cases hrun
    · split at hrun
      · cases hrun
      · cases hrun
        cases hu
  | txnEnd =>
    refine ⟨rfl, ?_⟩
    simp only [hk, feedEnd, EStateM.run_bind, EStateM.run_get] at hrun
    split at hrun
    · cases hrun
      rw [List.mem_singleton.1 hu] at hkind
      cases hkind
    case h_2 t ht =>
      split_ifs at hrun with hid
      · cases hrun
      · simp only [EStateM.run_bind, EStateM.run_set] at hrun
        split at hrun
        · cases hrun
        case h_2 hverify =>
          cases hrun
          exact ⟨t, ht, (not_not.1 hid).symm, hverify, List.mem_singleton.1 hu⟩
  | data =>
    rw [hk] at hrun
    rw [feedData_units hrun] at hu
    cases hu
  | truncate =>
    rw [hk] at hrun
    rw [feedData_units hrun] at hu
    cases hu
  | _ =>
    rw [hk] at hrun
    exact absurd hkind (feedControl_kind hrun u hu)

theorem feed_txn (hrun : (feed cfg rec).run s = .ok units s') (hu : u ∈ units)
    (hkind : u.kind = .txn) : rec.kind = .txnEnd ∧ ∃ t, Ends cfg s rec t u := by
  unfold feed at hrun
  by_cases hsnap : rec.kind = .snapshot
  · rw [if_pos hsnap] at hrun
    simp only [EStateM.run_bind, EStateM.run_get] at hrun
    split_ifs at hrun
    · cases hrun
    · cases hrun
      cases hu
    · obtain ⟨before, s₁, hfeed, hrun⟩ := run_bind_eq_ok.1 hrun
      cases hrun
      rw [feedSnapshot_kind hfeed u hu] at hkind
      cases hkind
  · rw [if_neg hsnap] at hrun
    obtain ⟨closed, s₁, hclose, hrun⟩ := run_bind_eq_ok.1 hrun
    obtain ⟨streamed, s₂, hstream, hrun⟩ := run_bind_eq_ok.1 hrun
    obtain ⟨released, s₃, hrelease, hrun⟩ := run_bind_eq_ok.1 hrun
    cases hrun
    rw [run_closeChunk] at hclose
    cases hclose
    rcases List.mem_append.1 hu with hu | hu
    · rcases List.mem_append.1 hu with hu | hu
      · obtain ⟨c, -, rfl⟩ := List.mem_map.1 hu
        cases hkind
      · obtain ⟨hk, t, hends⟩ := feedStream_txn hstream hu hkind
        exact ⟨hk, t, hends.txn, hends.txnId, hends.verified, hends.unit⟩
    · simp only [releaseDeferred, EStateM.run_bind, EStateM.run_get] at hrelease
      split_ifs at hrelease
      · rw [flushDeferredSnapshots_kind _ hrelease u hu] at hkind
        cases hkind
      · cases hrelease
        cases hu

/-- **A transaction is emitted at its END only.** -/
theorem input_txn {input : Input C V} (hrun : (input.feed cfg).run s = .ok units s')
    (hu : u ∈ units) (hkind : u.kind = .txn) :
    (∃ r, input = .record r ∧ r.kind = .txnEnd) ∧ ∃ t, Ends cfg s input.pending t u := by
  cases input with
  | record r =>
    obtain ⟨hk, hends⟩ := feed_txn hrun hu hkind
    exact ⟨⟨r, rfl, hk⟩, hends⟩
  | boundary r =>
    exfalso
    simp only [Input.feed, feedSnapshotBoundary, EStateM.run_bind, EStateM.run_get] at hrun
    split_ifs at hrun
    · cases hrun
    · cases hrun
    · simp only [EStateM.run_bind, run_closeChunk] at hrun
      cases hrun
      rcases List.mem_append.1 hu with hu | hu
      · obtain ⟨c, -, rfl⟩ := List.mem_map.1 hu
        cases hkind
      · rw [List.mem_singleton.1 hu] at hkind
        cases hkind

/-! ### The boundary rule -/

/-- Every declared table was checked. -/
private theorem checkDeclared_foldlM {t : OpenTxn C V} {txnId : Option String}
    {entries : List (String × ℤ)} {allowance left : ℤ}
    (h : entries.foldlM (checkDeclared t txnId) allowance = .ok left) {entry : String × ℤ}
    (hentry : entry ∈ entries) :
    ((t.perTable.get? entry.1).getD 0 : ℕ) = entry.2 ∨ (t.perTable.get? entry.1).getD 0 = 0 := by
  induction entries generalizing allowance with
  | nil => cases hentry
  | cons first rest ih =>
    obtain ⟨next, hfirst, hrest⟩ := except_bind_eq_ok.1 h
    rcases List.mem_cons.1 hentry with rfl | hentry
    · unfold checkDeclared at hfirst
      dsimp only at hfirst
      split_ifs at hfirst with heq hzero
      · exact Or.inl heq
      · exact Or.inr hzero.1
    · exact ih hrest hentry

/-- **What the boundary rule proves**: the count is the declared one, the ordinals are `1..N`, and
every table observed is declared with the count observed. -/
theorem verifyComplete_ok {t : OpenTxn C V} (h : verifyComplete t rec = .ok ()) :
    rec.txnEventCount = some (.int t.count) ∧ t.orders = ordinalsTo t.count ∧
      ∀ table n, t.perTable.get? table = some (n + 1) →
        rec.txnDataCollections.get? table = some ((n + 1 : ℕ) : ℤ) := by
  unfold verifyComplete at h
  split at h
  · cases h
  · cases h
  case h_3 declared hdeclared =>
    dsimp only at h
    split_ifs at h with hcount horders
    · rw [not_not] at hcount horders
      obtain ⟨left, hfold, h⟩ := except_bind_eq_ok.1 h
      refine ⟨by rw [hdeclared, hcount], horders, fun table n htable => ?_⟩
      split at h
      case h_2 => cases h
      case h_1 hnone =>
        have hcontains : rec.txnDataCollections.contains table := by
          have hall := List.find?_eq_none.1 hnone _ (Dict.get?_eq_some_iff.1 htable)
          simpa using hall
        obtain ⟨d, hd⟩ := Option.isSome_iff_exists.1 hcontains
        have hcheck := checkDeclared_foldlM hfold (Dict.get?_eq_some_iff.1 hd)
        rw [htable, Option.getD_some] at hcheck
        rcases hcheck with hcheck | hcheck
        · rw [hd, hcheck]
        · cases hcheck

/-! ### Sessions -/

/-- A run in which the feed goes on after a raise: the assembler, the records fed since the open
transaction opened, and the units returned. -/
structure Session (C V : Type) where
  state : Assembler C V := {}
  since : List (PendingRecord C V) := []
  emitted : List (CompleteUnit C V) := []

namespace Session

/-- One more input. A feed that raises returns no units. -/
def next (cfg : AssemblerConfig C V) (x : Session C V) (input : Input C V) : Session C V :=
  match (input.feed cfg).run x.state with
  | .ok units s => ⟨s, nextSince x.state s x.since input.pending, x.emitted ++ units⟩
  | .error _ s => ⟨s, nextSince x.state s x.since input.pending, x.emitted⟩

/-- The inputs one after the other. -/
def run (cfg : AssemblerConfig C V) (inputs : List (Input C V)) : Session C V :=
  inputs.foldl (next cfg) {}

theorem run_concat (cfg : AssemblerConfig C V) (inputs : List (Input C V)) (input : Input C V) :
    run cfg (inputs ++ [input]) = next cfg (run cfg inputs) input := by
  rw [run, List.foldl_append]
  rfl

theorem next_since (cfg : AssemblerConfig C V) (x : Session C V) (input : Input C V) :
    (next cfg x input).since =
      nextSince x.state (next cfg x input).state x.since input.pending := by
  unfold next
  split <;> rfl

theorem tracks_next {x : Session C V} {a : Ledger (PendingRecord C V)}
    (h : Tracks cfg x.state x.emitted x.since a) (input : Input C V) :
    ∃ b, Tracks cfg (next cfg x input).state (next cfg x input).emitted
      (next cfg x input).since b := by
  have hfollows := h.follows_input input
  unfold next
  cases hrun : (input.feed cfg).run x.state with
  | ok units s =>
    rw [hrun] at hfollows
    obtain ⟨b, -, h'⟩ := hfollows
    exact ⟨b, h'⟩
  | error refusal s =>
    rw [hrun] at hfollows
    exact hfollows

/-- **Whatever was fed and refused, the assembler keeps a ledger.** -/
theorem tracks (cfg : AssemblerConfig C V) (inputs : List (Input C V)) :
    ∃ a, Tracks cfg (run cfg inputs).state (run cfg inputs).emitted (run cfg inputs).since a := by
  induction inputs using List.reverseRecOn with
  | nil => exact ⟨{}, Tracks.init cfg⟩
  | append_singleton inputs input ih =>
    obtain ⟨a, h⟩ := ih
    rw [run_concat]
    exact tracks_next h input

end Session

/-! ### Wholeness -/

/-- **A whole transaction**, against the END record that closes it, the records fed since it
opened, and the batches staged by then. -/
structure Whole (cfg : AssemblerConfig C V) (calls : List (SpillCall C V))
    (since : List (PendingRecord C V)) (rec : PendingRecord C V) (u : CompleteUnit C V)
    (events : List (PendingRecord C V)) : Prop where
  txnId : rec.txnId = u.txnId
  /-- Data and message events of this transaction, each with an ordinal. -/
  counted : ∀ e ∈ events, ∃ txnId, u.txnId = some txnId ∧ e.Counted txnId
  since : events.Sublist since
  ordinals_nodup : (events.map PendingRecord.ordinal).Nodup
  /-- The ordinals are exactly `1..N`. -/
  ordinals : ∀ k : ℤ, k ∈ events.map PendingRecord.ordinal ↔ 1 ≤ k ∧ k ≤ events.length
  declared : rec.txnEventCount = some (.int events.length)
  count : u.eventCount = events.length
  tables : ∀ table n, observed events table = some n →
    rec.txnDataCollections.get? table = some (n : ℤ)
  /-- They are staged under the seq of the unit or in memory, in this order; or discarded. -/
  stored : if cfg.discardStreaming then
      u.events = [] ∧ u.spilledEvents = 0 ∧ u.discardedEvents = events.length
    else (staged calls u.spillUnitSeq ++ u.events).map PendingRecord.origin =
        events.map PendingRecord.origin ∧
      u.spilledEvents = (staged calls u.spillUnitSeq).length ∧ u.discardedEvents = 0

/-- A transaction that ends is whole. -/
theorem Ends.whole {emitted : List (CompleteUnit C V)} {since : List (PendingRecord C V)}
    {a : Ledger (PendingRecord C V)} {t : OpenTxn C V} (h : Ends cfg s rec t u)
    (htracks : Tracks cfg s emitted since a) :
    ∃ events, Whole cfg s.spillCalls since rec u events := by
  obtain ⟨p, -, ht⟩ := htracks.exists_txn h.txn
  obtain ⟨hdeclared, horders, htables⟩ := verifyComplete_ok h.verified
  have hunit := ht.unit rec
  have hcount : (t.carry cfg rec).count = p.events.length := ht.count
  rw [← h.unit] at hunit
  refine ⟨p.events, ?_, ?_, ht.since, ht.nodup, ?_, ?_, hunit.count, fun table n hn => ?_, ?_⟩
  · rw [h.txnId, h.unit]
    rfl
  · exact fun e he => ⟨t.txnId, by rw [h.unit]; rfl, ht.counted e he⟩
  · intro k
    rw [← hcount, ← mem_ordinalsTo, ← horders, ← List.mem_toFinset, ← ht.orders]
    rfl
  · rw [hdeclared, hcount]
  · rw [← ht.perTable] at hn
    cases n with
    | zero =>
      rw [ht.perTable, observed] at hn
      split at hn <;> cases hn
    | succ n => exact htables table n hn
  · have hheld := hunit.held
    have hlength := hunit.count
    have hkind : u.kind = .txn := by rw [h.unit]; rfl
    simp only [Holds, hkind, decide_true, Bool.true_and] at hheld
    simp only [CompleteUnit.eventCount, Parcel.carry] at hlength
    split_ifs at hheld ⊢ with hdiscard
    · rw [hheld.1, hheld.2.1, List.length_nil, zero_add, zero_add] at hlength
      exact ⟨hheld.1, hheld.2.1, hlength⟩
    · refine ⟨hheld.1, hheld.2, ?_⟩
      have horigin := congrArg List.length hheld.1
      have hspilled := hheld.2
      simp only [List.length_map, List.length_append, Parcel.carry] at horigin
      omega

/-- An END that is accepted for the open transaction emits it. -/
theorem feed_end_emits (hkind : rec.kind = .txnEnd) (htxn : s.txn.isSome)
    (hrun : (feed cfg rec).run s = .ok units s') : ∃ u ∈ units, u.kind = .txn := by
  obtain ⟨t, ht⟩ := Option.isSome_iff_exists.1 htxn
  unfold feed at hrun
  rw [if_neg (by simp [hkind])] at hrun
  obtain ⟨closed, s₁, hclose, hrun⟩ := run_bind_eq_ok.1 hrun
  obtain ⟨streamed, s₂, hstream, hrun⟩ := run_bind_eq_ok.1 hrun
  obtain ⟨released, s₃, -, hrun⟩ := run_bind_eq_ok.1 hrun
  cases hrun
  rw [run_closeChunk] at hclose
  cases hclose
  simp only [feedStream, hkind, feedEnd, EStateM.run_bind, EStateM.run_get, Assembler.setChunk, ht]
    at hstream
  split_ifs at hstream
  · cases hstream
  · simp only [EStateM.run_bind, EStateM.run_set] at hstream
    split at hstream
    · cases hstream
    · cases hstream
      exact ⟨_, List.mem_append_left _ (List.mem_append_right _ (List.mem_singleton_self _)), rfl⟩

theorem Session.emitted_txn (cfg : AssemblerConfig C V) (inputs : List (Input C V))
    (hu : u ∈ (Session.run cfg inputs).emitted) (hkind : u.kind = .txn) :
    ∃ before r after, inputs = before ++ .record r :: after ∧ r.kind = .txnEnd ∧
      ∃ events, Whole cfg (Session.run cfg before).state.spillCalls
        (Session.run cfg before).since r u events := by
  induction inputs using List.reverseRecOn with
  | nil => cases hu
  | append_singleton inputs input ih =>
    have hlater (hu : u ∈ (Session.run cfg inputs).emitted) :
        ∃ before r after, inputs ++ [input] = before ++ .record r :: after ∧ r.kind = .txnEnd ∧
          ∃ events, Whole cfg (Session.run cfg before).state.spillCalls
            (Session.run cfg before).since r u events := by
      obtain ⟨before, r, after, rfl, hrest⟩ := ih hu
      exact ⟨before, r, after ++ [input], by simp, hrest⟩
    rw [Session.run_concat, Session.next] at hu
    cases hrun : (input.feed cfg).run (Session.run cfg inputs).state with
    | error refusal s =>
      rw [hrun] at hu
      exact hlater hu
    | ok units s =>
      rw [hrun] at hu
      rcases List.mem_append.1 hu with hu | hu
      · exact hlater hu
      · obtain ⟨⟨r, rfl, hend⟩, t, hends⟩ := input_txn hrun hu hkind
        obtain ⟨a, htracks⟩ := Session.tracks cfg inputs
        exact ⟨inputs, r, [], rfl, hend, hends.whole htracks⟩

/-- **Every transaction that is emitted is whole**, in every session and at every spill threshold.
At an END the assembler either raises, and returns nothing, or emits a whole transaction. -/
theorem Session.transactions_whole (cfg : AssemblerConfig C V) (inputs : List (Input C V)) :
    (∀ u ∈ (Session.run cfg inputs).emitted, u.kind = .txn →
      ∃ before r after, inputs = before ++ .record r :: after ∧ r.kind = .txnEnd ∧
        ∃ events, Whole cfg (Session.run cfg before).state.spillCalls
          (Session.run cfg before).since r u events) ∧
    ∀ r : PendingRecord C V, r.kind = .txnEnd → (Session.run cfg inputs).state.txn.isSome →
      (∃ refusal s', (feed cfg r).run (Session.run cfg inputs).state = .error refusal s') ∨
      ∃ units s', (feed cfg r).run (Session.run cfg inputs).state = .ok units s' ∧
        ∃ u ∈ units, u.kind = .txn ∧ ∃ events,
          Whole cfg (Session.run cfg inputs).state.spillCalls (Session.run cfg inputs).since r u
            events := by
  refine ⟨fun u hu hkind => Session.emitted_txn cfg inputs hu hkind, fun r hend htxn => ?_⟩
  cases hrun : (feed cfg r).run (Session.run cfg inputs).state with
  | error refusal s' => exact Or.inl ⟨refusal, s', rfl⟩
  | ok units s' =>
    obtain ⟨u, hu, hkind⟩ := feed_end_emits hend htxn hrun
    obtain ⟨-, t, hends⟩ := feed_txn hrun hu hkind
    obtain ⟨a, htracks⟩ := Session.tracks cfg inputs
    exact Or.inr ⟨units, s', rfl, u, hu, hkind, hends.whole htracks⟩

namespace Accounts

/-- BEGIN of a transaction. -/
def begins (txnId : String) : PendingRecord Column String :=
  { kind := .txnBegin, txnId := some txnId }

/-- An event of a transaction. -/
def changes (txnId : String) (order : ℤ) : PendingRecord Column String :=
  { kind := .data
    txnId := some txnId
    totalOrder := some (.int order)
    schema := some "public"
    table := some "accounts" }

/-- END of a transaction. -/
def ends (txnId : String) (count : ℤ) : PendingRecord Column String :=
  { kind := .txnEnd
    txnId := some txnId
    txnEventCount := some (.int count)
    txnDataCollections := (∅ : Dict String ℤ).set "public.accounts" count }

/-- An assembler that spills every second event. -/
def spilling : AssemblerConfig Column String := { onSpill := some fun _ => none, spillEvents := 2 }

/-- A transaction in which an ordinal is repeated, and refused. -/
def stream : List (Input Column String) :=
  [begins "7", changes "7" 1, changes "7" 2, changes "7" 2, changes "7" 3, ends "7" 3].map .record

theorem stream_whole : ∃ u ∈ (Session.run spilling stream).emitted, u.kind = .txn ∧
    ∃ before r after, stream = before ++ .record r :: after ∧ r.kind = .txnEnd ∧
      ∃ events, Whole spilling (Session.run spilling before).state.spillCalls
        (Session.run spilling before).since r u events := by
  have hkinds : (Session.run spilling stream).emitted.map CompleteUnit.kind = [.txn] := by
    rfl
  obtain ⟨u, hu, hkind⟩ := List.mem_map.1 (hkinds ▸ List.mem_singleton_self UnitKind.txn)
  exact ⟨u, hu, hkind, (Session.transactions_whole spilling stream).1 u hu hkind⟩

end Accounts

end CdcFlight
