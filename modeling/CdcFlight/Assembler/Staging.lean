import CdcFlight.Assembler.AckOrder
import CdcFlight.Lib.Grows

/-!
# Staged rows of complete units

The calls of the spill callback are only added to, and no call is made for a unit once it is
complete. So what is staged of a unit when it is emitted is what is staged of it ever after, and a
transaction is as whole when its group is committed as it was at its END.

## Main definitions

* `CdcFlight.CallsGrow`: the calls of one state are the first calls of another.

## Main results

* `CdcFlight.Input.callsGrow_feed`: an input adds calls at most.
* `CdcFlight.Session.whole_now`: every transaction emitted is whole, against the calls made so far.
-/

namespace CdcFlight

open Lib

variable {C V : Type} {cfg : AssemblerConfig C V} {s s' : Assembler C V}
  {rec : PendingRecord C V}

/-! ### Calls are only added -/

/-- The calls of the spill callback so far are the first calls of the later state. -/
def CallsGrow (s s' : Assembler C V) : Prop := s.spillCalls <+: s'.spillCalls

instance : IsTrans (Assembler C V) CallsGrow := ⟨fun _ _ _ h h' => List.IsPrefix.trans h h'⟩

theorem CallsGrow.of_eq (h : s'.spillCalls = s.spillCalls) : CallsGrow s s' := by
  rw [CallsGrow, h]

theorem callsGrow_noteCall (s : Assembler C V) (call : SpillCall C V) :
    CallsGrow s (s.noteCall call) :=
  List.prefix_append _ _

theorem callsGrow_maybeSpillTxn (cfg : AssemblerConfig C V) (s : Assembler C V) :
    CallsGrow s (final ((maybeSpillTxn cfg).run s)) := by
  rcases maybeSpillTxn_cases cfg s with h | ⟨t, -, h | ⟨refusal, h⟩⟩
  · rw [h]
    exact .of_eq rfl
  · rw [h]
    exact callsGrow_noteCall s _
  · rw [h]
    exact .of_eq rfl

theorem callsGrow_maybeSpillChunk (cfg : AssemblerConfig C V) (s : Assembler C V) :
    CallsGrow s (final ((maybeSpillChunk cfg).run s)) := by
  rcases maybeSpillChunk_cases cfg s with h | ⟨t, -, h | ⟨refusal, h⟩⟩
  · rw [h]
    exact .of_eq rfl
  · rw [h]
    exact callsGrow_noteCall s _
  · rw [h]
    exact .of_eq rfl

theorem callsGrow_closeChunk (lastForTable : Bool) (s : Assembler C V) :
    CallsGrow s (final ((closeChunk lastForTable).run s)) := by
  rw [run_closeChunk]
  exact .of_eq rfl

theorem callsGrow_makeRoom (rec : PendingRecord C V) (s : Assembler C V) :
    CallsGrow s (final ((makeRoom rec).run s)) := by
  unfold makeRoom
  simp only [EStateM.run_bind, EStateM.run_get]
  split
  · exact .of_eq rfl
  · split_ifs
    · exact callsGrow_closeChunk _ s
    · exact callsGrow_closeChunk _ s
    · exact .of_eq rfl

theorem callsGrow_feedSnapshot (cfg : AssemblerConfig C V) (rec : PendingRecord C V)
    (s : Assembler C V) : CallsGrow s (final ((feedSnapshot cfg rec).run s)) := by
  unfold feedSnapshot
  rw [EStateM.run_bind, EStateM.run_get]
  dsimp only
  split_ifs
  · exact .of_eq rfl
  · exact .of_eq rfl
  · refine final_bind (callsGrow_makeRoom rec s) fun before s₁ _ => ?_
    refine final_bind (.of_eq rfl) fun _ s₂ _ => ?_
    refine final_bind (callsGrow_maybeSpillChunk cfg s₂) fun _ s₃ _ => ?_
    rw [EStateM.run_bind, EStateM.run_get]
    dsimp only
    split_ifs
    · exact final_bind (callsGrow_closeChunk _ s₃) fun _ _ _ => .of_eq rfl
    · exact .of_eq rfl

theorem callsGrow_flush (cfg : AssemblerConfig C V) (waiting : List (PendingRecord C V))
    (s : Assembler C V) : CallsGrow s (final ((flushDeferredSnapshots cfg waiting).run s)) := by
  induction waiting generalizing s with
  | nil => exact .of_eq rfl
  | cons r rest ih =>
    refine final_bind (.of_eq rfl) fun _ s₁ _ => ?_
    refine final_bind (callsGrow_feedSnapshot cfg r s₁) fun _ s₂ _ => ?_
    exact final_bind (ih s₂) fun _ _ _ => .of_eq rfl

theorem callsGrow_enterCounted (cfg : AssemblerConfig C V) (txnId : String) (order : ℤ)
    (changed : OpenTxn C V → String) (twice : String) (f : OpenTxn C V → OpenTxn C V)
    (s : Assembler C V) :
    CallsGrow s (final ((Tracks.enterCounted cfg txnId order changed twice f).run s)) := by
  refine final_bind ?_ fun t s₁ _ => ?_
  · unfold joinTxn
    rw [EStateM.run_bind, EStateM.run_get]
    dsimp only
    split
    · exact .of_eq rfl
    · split_ifs
      · exact .of_eq rfl
      · exact .of_eq rfl
  · unfold enterTxn
    split_ifs
    · exact .of_eq rfl
    · exact .of_eq rfl
    · refine final_bind (.of_eq rfl) fun _ s₂ _ => ?_
      exact final_bind (callsGrow_maybeSpillTxn cfg s₂) fun _ _ _ => .of_eq rfl

theorem callsGrow_validateOrdinal (rec : PendingRecord C V) (s : Assembler C V) :
    CallsGrow s (final ((validateOrdinal rec).run s)) := by
  unfold validateOrdinal
  split
  · exact .of_eq rfl
  · exact .of_eq rfl
  · split_ifs
    · exact .of_eq rfl
    · exact .of_eq rfl

theorem callsGrow_feedData (cfg : AssemblerConfig C V) (rec : PendingRecord C V)
    (s : Assembler C V) : CallsGrow s (final ((feedData cfg rec).run s)) := by
  unfold feedData
  split
  · exact .of_eq rfl
  · exact final_bind (callsGrow_validateOrdinal rec s) fun order s₁ _ =>
      callsGrow_enterCounted cfg _ order _ _ _ s₁

theorem callsGrow_feedControl (cfg : AssemblerConfig C V) (rec : PendingRecord C V)
    (s : Assembler C V) : CallsGrow s (final ((feedControl cfg rec).run s)) := by
  unfold feedControl
  split
  · unfold feedTransactionalMessage
    split
    · exact .of_eq rfl
    · exact final_bind (callsGrow_validateOrdinal rec s) fun order s₁ _ =>
        callsGrow_enterCounted cfg _ order _ _ _ s₁
  · rw [EStateM.run_bind, EStateM.run_get]
    dsimp only
    split
    · split_ifs
      · exact .of_eq rfl
      · exact .of_eq rfl
    · exact .of_eq rfl

theorem callsGrow_feedStream (cfg : AssemblerConfig C V) (rec : PendingRecord C V)
    (s : Assembler C V) : CallsGrow s (final ((feedStream cfg rec).run s)) := by
  unfold feedStream
  split
  · unfold feedBegin
    rw [EStateM.run_bind, EStateM.run_get]
    dsimp only
    split
    · exact .of_eq rfl
    · split
      · exact .of_eq rfl
      · exact .of_eq rfl
  · unfold feedEnd
    rw [EStateM.run_bind, EStateM.run_get]
    dsimp only
    split
    · exact .of_eq rfl
    · split_ifs
      · exact .of_eq rfl
      · rw [EStateM.run_bind, EStateM.run_set]
        dsimp only
        split
        · exact .of_eq rfl
        · exact .of_eq rfl
  · exact callsGrow_feedData cfg rec s
  · exact callsGrow_feedData cfg rec s
  · exact callsGrow_feedControl cfg rec s

theorem callsGrow_feed (cfg : AssemblerConfig C V) (rec : PendingRecord C V)
    (s : Assembler C V) : CallsGrow s (final ((feed cfg rec).run s)) := by
  unfold feed
  split
  · rw [EStateM.run_bind, EStateM.run_get]
    dsimp only
    split_ifs
    · exact .of_eq rfl
    · exact .of_eq rfl
    · refine final_bind (callsGrow_feedSnapshot cfg rec s) fun _ s₁ _ => ?_
      exact .of_eq rfl
  · refine final_bind (callsGrow_closeChunk true s) fun _ s₁ _ => ?_
    refine final_bind (callsGrow_feedStream cfg rec s₁) fun _ s₂ _ => ?_
    refine final_bind ?_ fun _ _ _ => .of_eq rfl
    unfold releaseDeferred
    rw [EStateM.run_bind, EStateM.run_get]
    dsimp only
    split_ifs
    · exact callsGrow_flush cfg _ s₂
    · exact .of_eq rfl

/-- **An input only adds calls.** -/
theorem Input.callsGrow_feed (cfg : AssemblerConfig C V) (input : Input C V)
    (s : Assembler C V) : CallsGrow s (final ((input.feed cfg).run s)) := by
  cases input with
  | record r => exact CdcFlight.callsGrow_feed cfg r s
  | boundary r =>
    show CallsGrow s (final ((feedSnapshotBoundary r).run s))
    unfold feedSnapshotBoundary
    rw [EStateM.run_bind, EStateM.run_get]
    dsimp only
    split_ifs
    · exact .of_eq rfl
    · exact .of_eq rfl
    · exact final_bind (callsGrow_closeChunk true s) fun _ _ _ => .of_eq rfl

/-! ### Whole transactions stay whole -/

theorem staged_prefix {calls calls' : List (SpillCall C V)} (h : calls <+: calls')
    (seq : Option ℕ) : staged calls seq <+: staged calls' seq := by
  cases seq with
  | none => exact List.prefix_rfl
  | some seq => exact (h.filter _).flatMap _

/-- Of the calls only those of the unit matter. -/
theorem Whole.congr {calls calls' : List (SpillCall C V)} {since : List (PendingRecord C V)}
    {u : CompleteUnit C V} {events : List (PendingRecord C V)}
    (h : Whole cfg calls since rec u events)
    (hcalls : cfg.discardStreaming = false →
      staged calls' u.spillUnitSeq = staged calls u.spillUnitSeq) :
    Whole cfg calls' since rec u events := by
  refine ⟨h.txnId, h.counted, h.since, h.ordinals_nodup, h.ordinals, h.declared, h.count,
    h.tables, ?_⟩
  have hstored := h.stored
  by_cases hdiscard : cfg.discardStreaming = true
  · rw [if_pos hdiscard] at hstored ⊢
    exact hstored
  · rw [if_neg hdiscard] at hstored ⊢
    rw [hcalls (by simpa using hdiscard)]
    exact hstored

namespace Session

theorem next_state (cfg : AssemblerConfig C V) (x : Session C V) (input : Input C V) :
    (next cfg x input).state = final ((input.feed cfg).run x.state) := by
  unfold next
  split
  · next h => rw [h, final_ok]
  · next h => rw [h, final_error]

theorem callsGrow_run (cfg : AssemblerConfig C V) (inputs later : List (Input C V)) :
    CallsGrow (run cfg inputs).state (run cfg (inputs ++ later)).state := by
  induction later using List.reverseRecOn with
  | nil => exact .of_eq (by rw [List.append_nil])
  | append_singleton later input ih =>
    rw [← List.append_assoc, run_concat, next_state]
    exact ih.trans (input.callsGrow_feed cfg _)

/-- What is staged of a complete unit has the length it had when the unit was emitted. -/
theorem length_staged (cfg : AssemblerConfig C V) (inputs : List (Input C V))
    {u : CompleteUnit C V} (hu : u ∈ (run cfg inputs).emitted)
    (hkeep : cfg.discardStreaming = false) :
    (staged (run cfg inputs).state.spillCalls u.spillUnitSeq).length = u.spilledEvents := by
  obtain ⟨a, htracks⟩ := tracks cfg inputs
  obtain ⟨i, hi⟩ := List.getElem?_of_mem hu
  obtain ⟨p, -, hp⟩ := htracks.exists_parcel hi
  have hheld := hp.held
  simp only [Holds, hkeep, Bool.and_false, Bool.false_eq_true, if_false] at hheld
  exact hheld.2.symm

/-- **Every transaction that was emitted is whole now**, whatever was staged since. -/
theorem whole_now (cfg : AssemblerConfig C V) (inputs : List (Input C V)) {u : CompleteUnit C V}
    (hu : u ∈ (run cfg inputs).emitted) (hkind : u.kind = .txn) :
    ∃ before r after, inputs = before ++ .record r :: after ∧ r.kind = .txnEnd ∧
      ∃ events, Whole cfg (run cfg inputs).state.spillCalls (run cfg before).since r u events := by
  obtain ⟨before, r, after, rfl, hend, events, hwhole⟩ := emitted_txn cfg inputs hu hkind
  refine ⟨before, r, after, rfl, hend, events, hwhole.congr fun hkeep => ?_⟩
  have hstored := hwhole.stored
  rw [hkeep] at hstored
  have hgrow := staged_prefix (callsGrow_run cfg before (.record r :: after)) u.spillUnitSeq
  refine (hgrow.eq_of_length ?_).symm
  rw [length_staged cfg _ hu hkeep]
  exact hstored.2.1.symm

end Session

end CdcFlight
