import CdcFlight.Assembler.Feed
import CdcFlight.Lib.Coupling

/-!
# Retention of records

The assembler retains for acknowledgement either every record of a unit or the last one only. Two
assemblers that differ in nothing else are run side by side: the state of the second is that of the
first with all but the last records dropped, and so is every unit it emits.

## Main definitions

* `CdcFlight.Assembler.trim`, `CdcFlight.CompleteUnit.trim`: all but the last records are dropped.
* `CdcFlight.Decoded`: a record as `decode` makes it.
* `CdcFlight.Emitted`: what the records of a unit are, when every record is retained.

## Main results

* `CdcFlight.feed_coupled`, `CdcFlight.feedSnapshotBoundary_coupled`: the two assemblers return
  the same units up to retention, or raise the same error.
-/

namespace CdcFlight

open Lib

variable {C V : Type}

/-- The configuration under which every record is retained, or the last one only. -/
def AssemblerConfig.retaining (cfg : AssemblerConfig C V) (keepAll : Bool) :
    AssemblerConfig C V :=
  { cfg with keepAllRecords := keepAll }

/-! ### Dropping all but the last records -/

/-- The last record, if there is one. -/
def lastOnly (records : List (PendingRecord C V)) : List (PendingRecord C V) :=
  records.getLast?.toList

def OpenTxn.trim (txn : OpenTxn C V) : OpenTxn C V :=
  { txn with records := lastOnly txn.records }

def OpenChunk.trim (chunk : OpenChunk C V) : OpenChunk C V :=
  { chunk with records := lastOnly chunk.records }

def CompleteUnit.trim (u : CompleteUnit C V) : CompleteUnit C V :=
  { u with records := lastOnly u.records }

def Assembler.trim (s : Assembler C V) : Assembler C V :=
  { s with txn := s.txn.map OpenTxn.trim, chunk := s.chunk.map OpenChunk.trim }

@[simp] theorem lastOnly_singleton (rec : PendingRecord C V) : lastOnly [rec] = [rec] := rfl

@[simp] theorem lastOnly_append_singleton (records : List (PendingRecord C V))
    (rec : PendingRecord C V) : lastOnly (records ++ [rec]) = [rec] := by
  simp [lastOnly]

theorem lastOnly_of_length_le {records : List (PendingRecord C V)} (h : records.length ≤ 1) :
    lastOnly records = records := by
  rcases records with _ | ⟨rec, _ | ⟨rec', rest⟩⟩
  · rfl
  · rfl
  · simp at h

theorem mem_of_mem_lastOnly {records : List (PendingRecord C V)} {rec : PendingRecord C V}
    (h : rec ∈ lastOnly records) : rec ∈ records :=
  List.mem_of_getLast? (Option.mem_toList.1 h)

@[simp] theorem retaining_retain (cfg : AssemblerConfig C V)
    (records : List (PendingRecord C V)) (rec : PendingRecord C V) :
    (cfg.retaining false).retain (lastOnly records) rec =
      lastOnly ((cfg.retaining true).retain records rec) := by
  simp [AssemblerConfig.retain, AssemblerConfig.retaining]

/-! ### What is retained -/

/-- A record as `decode` makes it: no snapshot boundary, which is built from a notification, and no
row count, which stands on a notification. -/
structure Decoded (C V : Type) where
  record : PendingRecord C V
  notBoundary : record.kind ≠ .snapshotBoundary
  noRows : record.incrementalRows = none

/-- A snapshot row as `decode` makes it. -/
def PlainRow (rec : PendingRecord C V) : Prop :=
  rec.kind = .snapshot ∧ rec.incrementalRows = none

/-- What the assembler that retains every record holds. -/
structure Assembler.Plain (s : Assembler C V) : Prop where
  txn : ∀ txn, s.txn = some txn → ∀ rec ∈ txn.records, rec.kind ≠ .snapshotBoundary
  chunk : ∀ chunk, s.chunk = some chunk → ∀ rec ∈ chunk.records, PlainRow rec
  deferred : ∀ rec ∈ s.deferredSnapshots, PlainRow rec

/-- The second assembler holds what the first one does, with all but the last records dropped. -/
def Leaner (s t : Assembler C V) : Prop := t = s.trim ∧ s.Plain

/-- The records of a unit that is emitted on a record, while a transaction may be open: one record,
rows of a snapshot, or a whole transaction and its END. -/
inductive Emitted (cfg : AssemblerConfig C V) (rec : PendingRecord C V)
    (isOpen : Option (OpenTxn C V)) : CompleteUnit C V → Prop
  | single (u : CompleteUnit C V) (h : u.records.length = 1) : Emitted cfg rec isOpen u
  | rows (u : CompleteUnit C V) (hkind : u.kind = .snapshotChunk)
      (hrows : ∀ r ∈ u.records, PlainRow r) : Emitted cfg rec isOpen u
  | whole (txn : OpenTxn C V) (hopen : isOpen = some txn) (hend : rec.kind = .txnEnd)
      (hid : some txn.txnId = rec.txnId)
      (hwhole : verifyComplete (txn.carry (cfg.retaining true) rec) rec = .ok ())
      (hplain : ∀ r ∈ txn.records, r.kind ≠ .snapshotBoundary) :
      Emitted cfg rec isOpen ((txn.carry (cfg.retaining true) rec).unit rec)

/-- Both runs return the same units up to retention, and end in states that correspond. -/
structure Emits (cfg : AssemblerConfig C V) (rec : PendingRecord C V)
    (isOpen : Option (OpenTxn C V)) (units units' : List (CompleteUnit C V))
    (s t : Assembler C V) : Prop where
  trimmed : units' = units.map CompleteUnit.trim
  emitted : ∀ u ∈ units, Emitted cfg rec isOpen u
  states : Leaner s t

/-! ### Lemmas -/

section Lemmas

variable {cfg : AssemblerConfig C V} {rec : PendingRecord C V} {isOpen : Option (OpenTxn C V)}
  {s t : Assembler C V}

theorem Emits.nil (h : Leaner s t) : Emits cfg rec isOpen [] [] s t :=
  ⟨rfl, by simp, h⟩

theorem Emits.singleton {u : CompleteUnit C V} (hu : Emitted cfg rec isOpen u)
    (h : Leaner s t) : Emits cfg rec isOpen [u] [u.trim] s t :=
  ⟨rfl, by simpa using hu, h⟩

theorem Emits.append {units units' more more' : List (CompleteUnit C V)} {s' t' : Assembler C V}
    (h : Emits cfg rec isOpen units units' s t) (h' : Emits cfg rec isOpen more more' s' t') :
    Emits cfg rec isOpen (units ++ more) (units' ++ more') s' t' := by
  refine ⟨by rw [h.trimmed, h'.trimmed, List.map_append], fun u hu => ?_, h'.states⟩
  rcases List.mem_append.1 hu with hu | hu
  · exact h.emitted u hu
  · exact h'.emitted u hu

theorem Assembler.Plain.setTxn (hs : s.Plain) {txn : Option (OpenTxn C V)}
    (htxn : ∀ t, txn = some t → ∀ rec ∈ t.records, rec.kind ≠ .snapshotBoundary) :
    (s.setTxn txn).Plain :=
  ⟨htxn, hs.chunk, hs.deferred⟩

theorem Assembler.Plain.setChunk (hs : s.Plain) {chunk : Option (OpenChunk C V)}
    (hchunk : ∀ c, chunk = some c → ∀ rec ∈ c.records, PlainRow rec) :
    (s.setChunk chunk).Plain :=
  ⟨hs.txn, hchunk, hs.deferred⟩

theorem Assembler.Plain.setDeferred (hs : s.Plain) {rows : List (PendingRecord C V)}
    (hrows : ∀ rec ∈ rows, PlainRow rec) : (s.setDeferred rows).Plain :=
  ⟨hs.txn, hs.chunk, hrows⟩

/-- A record joins those that are retained. -/
theorem forall_mem_retain (cfg : AssemblerConfig C V) {P : PendingRecord C V → Prop}
    {records : List (PendingRecord C V)}
    (h : ∀ r ∈ records, P r) (hrec : P rec) :
    ∀ r ∈ (cfg.retaining true).retain records rec, P r := by
  intro r hr
  rcases List.mem_append.1 hr with hr | hr
  · exact h r hr
  · exact (List.mem_singleton.1 hr) ▸ hrec

end Lemmas

/-! ### Spilling -/

section Steps

variable (cfg : AssemblerConfig C V) {s : Assembler C V}

/-- Both runs end in states that correspond. -/
abbrev StaysLeaner {α β : Type} (_ : α) (_ : β) (s t : Assembler C V) : Prop := Leaner s t

theorem maybeSpillTxn_coupled (hs : s.Plain) :
    Coupled StaysLeaner (fun _ _ => True) ((maybeSpillTxn (cfg.retaining true)).run s)
      ((maybeSpillTxn (cfg.retaining false)).run s.trim) := by
  have honSpill (keepAll : Bool) : (cfg.retaining keepAll).onSpill = cfg.onSpill := rfl
  have hoverflows (keepAll : Bool) : (cfg.retaining keepAll).overflows = cfg.overflows := rfl
  have htrim : s.trim.txn = s.txn.map OpenTxn.trim := rfl
  simp only [maybeSpillTxn, EStateM.run_bind, EStateM.run_get, honSpill, hoverflows, htrim]
  cases cfg.onSpill with
  | none => exact .ok ⟨rfl, hs⟩
  | some onSpill =>
    cases htxn : s.txn with
    | none => exact .ok ⟨rfl, hs⟩
    | some txn =>
      have hoverflow : cfg.overflows txn.trim.events txn.trim.memBytes =
        cfg.overflows txn.events txn.memBytes := rfl
      have hcall : (⟨s.trim.seqFor txn.trim.spillUnitSeq, txn.trim.events, none⟩ : SpillCall C V) =
        ⟨s.seqFor txn.spillUnitSeq, txn.events, none⟩ := rfl
      simp only [Option.map_some, hoverflow]
      by_cases hfull : cfg.overflows txn.events txn.memBytes = true
      · simp only [if_pos hfull]
        rw [hcall]
        cases onSpill ⟨s.seqFor txn.spillUnitSeq, txn.events, none⟩ with
        | some refusal => exact .error trivial
        | none =>
          refine .ok ⟨rfl, ⟨?_, hs.chunk, hs.deferred⟩⟩
          rintro txn' htxn'
          obtain rfl := Option.some.inj htxn'
          exact hs.txn txn htxn
      · simp only [if_neg hfull]
        exact .ok ⟨rfl, hs⟩

theorem maybeSpillChunk_coupled (hs : s.Plain) :
    Coupled StaysLeaner (fun _ _ => True) ((maybeSpillChunk (cfg.retaining true)).run s)
      ((maybeSpillChunk (cfg.retaining false)).run s.trim) := by
  have honSpill (keepAll : Bool) : (cfg.retaining keepAll).onSpill = cfg.onSpill := rfl
  have hoverflows (keepAll : Bool) : (cfg.retaining keepAll).overflows = cfg.overflows := rfl
  have htrim : s.trim.chunk = s.chunk.map OpenChunk.trim := rfl
  simp only [maybeSpillChunk, EStateM.run_bind, EStateM.run_get, honSpill, hoverflows, htrim]
  cases cfg.onSpill with
  | none => exact .ok ⟨rfl, hs⟩
  | some onSpill =>
    cases hchunk : s.chunk with
    | none => exact .ok ⟨rfl, hs⟩
    | some chunk =>
      have hoverflow : cfg.overflows chunk.trim.events chunk.trim.memBytes =
        cfg.overflows chunk.events chunk.memBytes := rfl
      have hcall : (⟨s.trim.seqFor chunk.trim.spillUnitSeq, chunk.trim.events,
          some (chunk.trim.schema, chunk.trim.table)⟩ : SpillCall C V) =
        ⟨s.seqFor chunk.spillUnitSeq, chunk.events, some (chunk.schema, chunk.table)⟩ := rfl
      simp only [Option.map_some, hoverflow]
      by_cases hfull : cfg.overflows chunk.events chunk.memBytes = true
      · simp only [if_pos hfull]
        rw [hcall]
        cases onSpill ⟨s.seqFor chunk.spillUnitSeq, chunk.events,
            some (chunk.schema, chunk.table)⟩ with
        | some refusal => exact .error trivial
        | none =>
          refine .ok ⟨rfl, ⟨hs.txn, ?_, hs.deferred⟩⟩
          rintro chunk' hchunk'
          obtain rfl := Option.some.inj hchunk'
          exact hs.chunk chunk hchunk
      · simp only [if_neg hfull]
        exact .ok ⟨rfl, hs⟩

/-! ### Snapshot rows -/

/-- The chunk that is closed is one of snapshot rows, and no transaction is touched. -/
theorem closeChunk_coupled (hs : s.Plain) (lastForTable : Bool) (rec : PendingRecord C V)
    (isOpen : Option (OpenTxn C V)) :
    Coupled (fun units units' s' t' => Emits cfg rec isOpen units units' s' t' ∧ s'.txn = s.txn)
      (fun _ _ => True) ((closeChunk lastForTable).run s)
      ((closeChunk lastForTable).run s.trim) := by
  have htrim : s.trim.chunk = s.chunk.map OpenChunk.trim := rfl
  simp only [closeChunk, EStateM.run_bind, EStateM.run_get, htrim]
  cases hchunk : s.chunk with
  | none => exact .ok ⟨.nil ⟨rfl, hs⟩, rfl⟩
  | some chunk =>
    refine .ok ⟨.singleton (.rows _ rfl (hs.chunk chunk hchunk)) ⟨rfl, ?_⟩, rfl⟩
    exact hs.setChunk (by simp)

theorem makeRoom_coupled (hs : s.Plain) (row rec : PendingRecord C V)
    (isOpen : Option (OpenTxn C V)) :
    Coupled (Emits cfg rec isOpen) (fun _ _ => True) ((makeRoom row).run s)
      ((makeRoom row).run s.trim) := by
  have htrim : s.trim.chunk = s.chunk.map OpenChunk.trim := rfl
  simp only [makeRoom, EStateM.run_bind, EStateM.run_get, htrim]
  cases hchunk : s.chunk with
  | none => exact .ok (.nil ⟨rfl, hs⟩)
  | some chunk =>
    have hother : chunk.trim.otherTable row = chunk.otherTable row := rfl
    have hincremental : chunk.trim.incremental = chunk.incremental := rfl
    simp only [Option.map_some, hother, hincremental]
    split_ifs
    · exact (closeChunk_coupled cfg hs true rec isOpen).mono (fun _ _ _ _ h => h.1) fun _ _ h => h
    · exact (closeChunk_coupled cfg hs false rec isOpen).mono (fun _ _ _ _ h => h.1) fun _ _ h => h
    · exact .ok (.nil ⟨rfl, hs⟩)

theorem OpenChunk.trim_push (chunk : OpenChunk C V) (row : PendingRecord C V) :
    (chunk.push (cfg.retaining true) row).trim = chunk.trim.push (cfg.retaining false) row := by
  simp only [OpenChunk.trim, OpenChunk.push, retaining_retain]

theorem enterChunk_leaner (hs : s.Plain) {row : PendingRecord C V} (hrow : PlainRow row) :
    Leaner (s.enterChunk (cfg.retaining true) row)
      (s.trim.enterChunk (cfg.retaining false) row) := by
  have hfor : s.trim.chunkFor row = (s.chunkFor row).trim := by
    rw [Assembler.chunkFor, Assembler.chunkFor, Assembler.trim]
    cases s.chunk with
    | none => rfl
    | some chunk => rfl
  refine ⟨?_, hs.txn, ?_, hs.deferred⟩
  · rw [Assembler.enterChunk, hfor, ← OpenChunk.trim_push]
    rfl
  · rintro chunk hchunk
    obtain rfl := Option.some.inj hchunk
    refine forall_mem_retain cfg (fun r hr => ?_) hrow
    cases hchunk : s.chunk with
    | none => simp [Assembler.chunkFor, hchunk] at hr
    | some chunk =>
      rw [Assembler.chunkFor, hchunk] at hr
      exact hs.chunk chunk hchunk r hr

theorem feedSnapshot_coupled (hs : s.Plain) {row : PendingRecord C V} (hrow : PlainRow row)
    (rec : PendingRecord C V) (isOpen : Option (OpenTxn C V)) :
    Coupled (Emits cfg rec isOpen) (fun _ _ => True) ((feedSnapshot (cfg.retaining true) row).run s)
      ((feedSnapshot (cfg.retaining false) row).run s.trim) := by
  have hincremental (keepAll : Bool) :
    (cfg.retaining keepAll).incrementalEnabled = cfg.incrementalEnabled := rfl
  have htrim : s.trim.txn.isSome = s.txn.isSome := Option.isSome_map
  rw [feedSnapshot, feedSnapshot, EStateM.run_bind, EStateM.run_get, EStateM.run_bind,
    EStateM.run_get]
  simp only [hincremental, htrim]
  split_ifs
  · exact .error trivial
  · exact .error trivial
  · refine (makeRoom_coupled cfg hs row rec isOpen).bind fun before before' s t hbefore => ?_
    obtain ⟨rfl, hs⟩ := hbefore.states
    have hentered := enterChunk_leaner cfg hs hrow
    refine Coupled.bind (R := StaysLeaner) (.ok hentered) fun _ _ s₁ t₁ h₁ => ?_
    obtain ⟨rfl, hs₁⟩ := h₁
    refine (maybeSpillChunk_coupled cfg hs₁).bind fun _ _ s₂ t₂ h₂ => ?_
    obtain ⟨rfl, hs₂⟩ := h₂
    rw [EStateM.run_bind, EStateM.run_get, EStateM.run_bind, EStateM.run_get]
    have hfull : s₂.trim.chunk.any (cfg.retaining false).chunkFull =
        s₂.chunk.any (cfg.retaining true).chunkFull := by
      rw [Assembler.trim]
      cases s₂.chunk with
      | none => rfl
      | some chunk => rfl
    simp only [hfull]
    split_ifs
    · refine (closeChunk_coupled cfg hs₂ _ rec isOpen).bind fun _ _ s₃ t₃ h₃ => ?_
      exact .ok (hbefore.append h₃.1)
    · exact .ok ⟨hbefore.trimmed, hbefore.emitted, rfl, hs₂⟩

theorem flushDeferredSnapshots_coupled (rec : PendingRecord C V) (isOpen : Option (OpenTxn C V))
    {rows : List (PendingRecord C V)} (hrows : ∀ row ∈ rows, PlainRow row) (hs : s.Plain) :
    Coupled (Emits cfg rec isOpen) (fun _ _ => True)
      ((flushDeferredSnapshots (cfg.retaining true) rows).run s)
      ((flushDeferredSnapshots (cfg.retaining false) rows).run s.trim) := by
  induction rows generalizing s with
  | nil => exact .ok (.nil ⟨rfl, hs⟩)
  | cons row rows ih =>
    have hrest : ∀ row ∈ rows, PlainRow row := fun r hr => hrows r (List.mem_cons_of_mem _ hr)
    rw [flushDeferredSnapshots, flushDeferredSnapshots]
    have hqueued : Leaner (s.setDeferred rows) (s.trim.setDeferred rows) :=
      ⟨rfl, hs.setDeferred hrest⟩
    refine Coupled.bind (R := StaysLeaner) (.ok hqueued) fun _ _ s₁ t₁ h₁ => ?_
    obtain ⟨rfl, hs₁⟩ := h₁
    refine (feedSnapshot_coupled cfg hs₁ (hrows row List.mem_cons_self) rec isOpen).bind
      fun units units' s₂ t₂ h₂ => ?_
    obtain ⟨rfl, hs₂⟩ := h₂.states
    exact (ih hrest hs₂).bind fun more more' s₃ t₃ h₃ => .ok (h₂.append h₃)

/-! ### Streaming -/

variable {rec : PendingRecord C V}

theorem feedBegin_coupled (hs : s.Plain) (hrec : rec.kind ≠ .snapshotBoundary)
    (isOpen : Option (OpenTxn C V)) :
    Coupled (Emits cfg rec isOpen) (fun _ _ => True) ((feedBegin (cfg.retaining true) rec).run s)
      ((feedBegin (cfg.retaining false) rec).run s.trim) := by
  have htrim : s.trim.txn = s.txn.map OpenTxn.trim := rfl
  simp only [feedBegin, EStateM.run_bind, EStateM.run_get, htrim]
  cases s.txn with
  | some txn => exact .error trivial
  | none =>
    cases rec.txnId with
    | none => exact .error trivial
    | some txnId =>
      refine .ok (.nil ⟨rfl, hs.setTxn ?_⟩)
      rintro txn htxn
      obtain rfl := Option.some.inj htxn
      exact forall_mem_retain cfg (by simp) hrec

theorem validateOrdinal_coupled (hs : s.Plain) :
    Coupled (fun order order' s t => order' = order ∧ Leaner s t) (fun _ _ => True)
      ((validateOrdinal rec).run s) ((validateOrdinal rec).run s.trim) := by
  rw [validateOrdinal]
  rcases rec.totalOrder with _ | ⟨order⟩ | _
  · exact .error trivial
  · simp only
    split_ifs
    · exact .error trivial
    · exact .ok ⟨rfl, rfl, hs⟩
  · exact .error trivial

/-- The transaction that a counted event joins. -/
structure JoinedTxn (txn txn' : OpenTxn C V) (s t : Assembler C V) : Prop where
  trimmed : txn' = txn.trim
  plain : ∀ r ∈ txn.records, r.kind ≠ .snapshotBoundary
  states : Leaner s t

theorem joinTxn_coupled (hs : s.Plain) (txnId : String) {changed : OpenTxn C V → String}
    (hchanged : ∀ txn, changed txn.trim = changed txn) :
    Coupled JoinedTxn (fun _ _ => True) ((joinTxn txnId changed).run s)
      ((joinTxn txnId changed).run s.trim) := by
  have htrim : s.trim.txn = s.txn.map OpenTxn.trim := rfl
  simp only [joinTxn, EStateM.run_bind, EStateM.run_get, htrim]
  cases htxn : s.txn with
  | none =>
    refine .ok ⟨rfl, by simp, rfl, ⟨?_, hs.chunk, hs.deferred⟩⟩
    rintro txn htxn
    obtain rfl := Option.some.inj htxn
    simp
  | some txn =>
    have hid : txn.trim.txnId = txn.txnId := rfl
    simp only [Option.map_some, hid, hchanged]
    split_ifs
    · exact .error trivial
    · exact .ok ⟨rfl, hs.txn txn htxn, rfl, hs⟩

theorem enterTxn_coupled (hs : s.Plain) (isOpen : Option (OpenTxn C V)) (txn : OpenTxn C V)
    (order : ℤ) (twice : String) {admitted : OpenTxn C V}
    (hadmitted : ∀ r ∈ admitted.records, r.kind ≠ .snapshotBoundary) :
    Coupled (Emits cfg rec isOpen) (fun _ _ => True)
      ((enterTxn (cfg.retaining true) txn order twice admitted).run s)
      ((enterTxn (cfg.retaining false) txn.trim order twice admitted.trim).run s.trim) := by
  have hdiscard (keepAll : Bool) :
    (cfg.retaining keepAll).discardStreaming = cfg.discardStreaming := rfl
  have horders : txn.trim.orders = txn.orders := rfl
  rw [enterTxn, enterTxn]
  simp only [hdiscard, horders]
  by_cases htwice : order ∈ txn.orders
  · simp only [if_pos htwice]
    exact .error trivial
  · have hset : Leaner (s.setTxn (some admitted)) (s.trim.setTxn (some admitted.trim)) := by
      refine ⟨rfl, hs.setTxn ?_⟩
      rintro txn htxn
      obtain rfl := Option.some.inj htxn
      exact hadmitted
    simp only [if_neg htwice]
    refine Coupled.bind (R := StaysLeaner) (.ok hset) fun _ _ s₁ t₁ h₁ => ?_
    obtain ⟨rfl, hs₁⟩ := h₁
    by_cases hdiscarded : cfg.discardStreaming = true
    · simp only [if_pos hdiscarded]
      exact .ok (.nil ⟨rfl, hs₁⟩)
    · simp only [if_neg hdiscarded]
      exact (maybeSpillTxn_coupled cfg hs₁).bind fun _ _ _ _ h₂ => .ok (.nil h₂)

theorem OpenTxn.trim_enter (txn : OpenTxn C V) (order : ℤ) :
    (txn.enter (cfg.retaining true) rec order).trim =
      txn.trim.enter (cfg.retaining false) rec order := by
  simp only [OpenTxn.trim, OpenTxn.enter, retaining_retain]
  rfl

theorem OpenTxn.trim_carry (txn : OpenTxn C V) :
    (txn.carry (cfg.retaining true) rec).trim = txn.trim.carry (cfg.retaining false) rec := by
  simp only [OpenTxn.trim, OpenTxn.carry, retaining_retain]

theorem feedData_coupled (hs : s.Plain) (hrec : rec.kind ≠ .snapshotBoundary)
    (isOpen : Option (OpenTxn C V)) :
    Coupled (Emits cfg rec isOpen) (fun _ _ => True) ((feedData (cfg.retaining true) rec).run s)
      ((feedData (cfg.retaining false) rec).run s.trim) := by
  rw [feedData, feedData]
  cases rec.txnId with
  | none => exact .error trivial
  | some txnId =>
    refine (validateOrdinal_coupled hs).bind fun order order' s₁ t₁ h₁ => ?_
    obtain ⟨rfl, rfl, hs₁⟩ := h₁
    refine (joinTxn_coupled hs₁ txnId fun _ => rfl).bind fun txn txn' s₂ t₂ h₂ => ?_
    obtain ⟨rfl, hplain, rfl, hs₂⟩ := h₂
    have hcounted : (txn.trim.enter (cfg.retaining false) rec order').countData rec =
        ((txn.enter (cfg.retaining true) rec order').countData rec).trim := by
      rw [← OpenTxn.trim_enter]
      rfl
    rw [hcounted]
    exact enterTxn_coupled cfg hs₂ isOpen txn order' _ (forall_mem_retain cfg hplain hrec)

theorem feedTransactionalMessage_coupled (hs : s.Plain) (hrec : rec.kind ≠ .snapshotBoundary)
    (isOpen : Option (OpenTxn C V)) :
    Coupled (Emits cfg rec isOpen) (fun _ _ => True)
      ((feedTransactionalMessage (cfg.retaining true) rec).run s)
      ((feedTransactionalMessage (cfg.retaining false) rec).run s.trim) := by
  rw [feedTransactionalMessage, feedTransactionalMessage]
  cases rec.txnId with
  | none => exact .error trivial
  | some txnId =>
    refine (validateOrdinal_coupled hs).bind fun order order' s₁ t₁ h₁ => ?_
    obtain ⟨rfl, rfl, hs₁⟩ := h₁
    refine (joinTxn_coupled hs₁ txnId fun _ => rfl).bind fun txn txn' s₂ t₂ h₂ => ?_
    obtain ⟨rfl, hplain, rfl, hs₂⟩ := h₂
    rw [← OpenTxn.trim_enter]
    exact enterTxn_coupled cfg hs₂ isOpen txn order' _ (forall_mem_retain cfg hplain hrec)

theorem feedControl_coupled (hs : s.Plain) (hrec : rec.kind ≠ .snapshotBoundary)
    (isOpen : Option (OpenTxn C V)) :
    Coupled (Emits cfg rec isOpen) (fun _ _ => True) ((feedControl (cfg.retaining true) rec).run s)
      ((feedControl (cfg.retaining false) rec).run s.trim) := by
  rw [feedControl, feedControl]
  by_cases htransactional : (rec.kind = .message && rec.transactional) = true
  · simp only [if_pos htransactional]
    exact feedTransactionalMessage_coupled cfg hs hrec isOpen
  · have htrim : s.trim.txn = s.txn.map OpenTxn.trim := rfl
    simp only [if_neg htransactional, EStateM.run_bind, EStateM.run_get, htrim]
    cases htxn : s.txn with
    | some txn =>
      by_cases hmessage : rec.kind = .message
      · simp only [Option.map_some, if_pos hmessage]
        exact .error trivial
      · simp only [Option.map_some, if_neg hmessage, ← OpenTxn.trim_carry]
        refine .ok (.nil ⟨rfl, hs.setTxn ?_⟩)
        rintro txn' htxn'
        obtain rfl := Option.some.inj htxn'
        exact forall_mem_retain cfg (hs.txn txn htxn) hrec
    | none =>
      by_cases hmessage : rec.kind = .message
      · simp only [Option.map_none, if_pos hmessage]
        exact .ok (.singleton (.single _ rfl) ⟨rfl, hs⟩)
      · simp only [Option.map_none, if_neg hmessage]
        exact .ok (.singleton (.single _ rfl) ⟨rfl, hs⟩)

theorem verifyComplete_trim (txn : OpenTxn C V) :
    verifyComplete txn.trim rec = verifyComplete txn rec := rfl

theorem OpenTxn.trim_unit (txn : OpenTxn C V) : txn.trim.unit rec = (txn.unit rec).trim := rfl

theorem feedEnd_coupled (hs : s.Plain) (hend : rec.kind = .txnEnd) :
    Coupled (Emits cfg rec s.txn) (fun _ _ => True) ((feedEnd (cfg.retaining true) rec).run s)
      ((feedEnd (cfg.retaining false) rec).run s.trim) := by
  have htrim : s.trim.txn = s.txn.map OpenTxn.trim := rfl
  simp only [feedEnd, EStateM.run_bind, EStateM.run_get, htrim]
  cases htxn : s.txn with
  | none => exact .ok (.singleton (.single _ rfl) ⟨rfl, by simp, hs.chunk, hs.deferred⟩)
  | some txn =>
    have hid : txn.trim.txnId = txn.txnId := rfl
    simp only [Option.map_some, hid, ← OpenTxn.trim_carry, verifyComplete_trim,
      OpenTxn.trim_unit]
    by_cases hother : some txn.txnId ≠ rec.txnId
    · simp only [if_pos hother]
      exact .error trivial
    · simp only [if_neg hother]
      have hclosed : Leaner (s.setTxn none) (s.trim.setTxn none) := ⟨rfl, hs.setTxn (by simp)⟩
      refine Coupled.bind (R := StaysLeaner) (.ok hclosed) fun _ _ s₁ t₁ h₁ => ?_
      cases hverify : verifyComplete (txn.carry (cfg.retaining true) rec) rec with
      | error refusal => exact .error trivial
      | ok _ =>
        have hplain := hs.txn txn htxn
        exact .ok (.singleton (.whole txn rfl hend (not_not.1 hother) hverify hplain) h₁)

theorem feedStream_coupled (hs : s.Plain) (hrec : rec.kind ≠ .snapshotBoundary) :
    Coupled (Emits cfg rec s.txn) (fun _ _ => True) ((feedStream (cfg.retaining true) rec).run s)
      ((feedStream (cfg.retaining false) rec).run s.trim) := by
  rw [feedStream, feedStream]
  cases hkind : rec.kind with
  | txnBegin => exact feedBegin_coupled cfg hs hrec s.txn
  | txnEnd => exact feedEnd_coupled cfg hs hkind
  | data => exact feedData_coupled cfg hs hrec s.txn
  | truncate => exact feedData_coupled cfg hs hrec s.txn
  | _ => exact feedControl_coupled cfg hs hrec s.txn

theorem releaseDeferred_coupled (hs : s.Plain) (rec : PendingRecord C V)
    (isOpen : Option (OpenTxn C V)) :
    Coupled (Emits cfg rec isOpen) (fun _ _ => True)
      ((releaseDeferred (cfg.retaining true)).run s)
      ((releaseDeferred (cfg.retaining false)).run s.trim) := by
  have htrim : s.trim.txn.isNone = s.txn.isNone := Option.isNone_map
  have hdeferred : s.trim.deferredSnapshots = s.deferredSnapshots := rfl
  simp only [releaseDeferred, EStateM.run_bind, EStateM.run_get, htrim, hdeferred]
  by_cases hnone : s.txn.isNone = true
  · simp only [if_pos hnone]
    exact flushDeferredSnapshots_coupled cfg rec isOpen hs.deferred hs
  · simp only [if_neg hnone]
    exact .ok (.nil ⟨rfl, hs⟩)

/-! ### The entry points -/

theorem Emits.countUnits {isOpen : Option (OpenTxn C V)} {cfg : AssemblerConfig C V}
    {units units' : List (CompleteUnit C V)}
    {t : Assembler C V} (h : Emits cfg rec isOpen units units' s t) :
    Emits cfg rec isOpen units units' (s.countUnits units.length) (t.countUnits units'.length) := by
  obtain ⟨rfl, hs⟩ := h.states
  refine ⟨h.trimmed, h.emitted, ?_, hs.txn, hs.chunk, hs.deferred⟩
  rw [h.trimmed, List.length_map]
  rfl

/-- **Retention does not change what is assembled**: fed the same decoded record, the two
assemblers raise the same error, or return the same units up to retention and correspond again. -/
theorem feed_coupled (hs : s.Plain) (input : Decoded C V) :
    Coupled (Emits cfg input.record s.txn) (fun _ _ => True)
      ((feed (cfg.retaining true) input.record).run s)
      ((feed (cfg.retaining false) input.record).run s.trim) := by
  obtain ⟨rec, hrec, hrows⟩ := input
  have htrim : s.trim.txn.isSome = s.txn.isSome := Option.isSome_map
  have hdeferred : s.trim.deferredSnapshots = s.deferredSnapshots := rfl
  have hincremental (keepAll : Bool) :
    (cfg.retaining keepAll).incrementalEnabled = cfg.incrementalEnabled := rfl
  rw [feed, feed]
  by_cases hsnapshot : rec.kind = .snapshot
  · simp only [if_pos hsnapshot, EStateM.run_bind, EStateM.run_get, htrim, hdeferred, hincremental]
    by_cases hopen : s.txn.isSome = true
    · simp only [if_pos hopen]
      by_cases hrefused : (!rec.isIncremental || !cfg.incrementalEnabled) = true
      · simp only [if_pos hrefused]
        exact .error trivial
      · simp only [if_neg hrefused]
        refine .ok (.nil ⟨rfl, hs.setDeferred fun row hrow => ?_⟩)
        rcases List.mem_append.1 hrow with hrow | hrow
        · exact hs.deferred row hrow
        · exact (List.mem_singleton.1 hrow) ▸ ⟨hsnapshot, hrows⟩
    · simp only [if_neg hopen]
      exact (feedSnapshot_coupled cfg hs ⟨hsnapshot, hrows⟩ rec s.txn).bind
        fun units units' s₁ t₁ h₁ => .ok h₁.countUnits
  · simp only [if_neg hsnapshot]
    refine (closeChunk_coupled cfg hs true rec s.txn).bind fun closed closed' s₁ t₁ h₁ => ?_
    obtain ⟨hclosed, htxn⟩ := h₁
    obtain ⟨rfl, hs₁⟩ := hclosed.states
    rw [← htxn] at hclosed ⊢
    refine (feedStream_coupled cfg hs₁ hrec).bind fun units units' s₂ t₂ hunits => ?_
    obtain ⟨rfl, hs₂⟩ := hunits.states
    refine (releaseDeferred_coupled cfg hs₂ rec s₁.txn).bind
      fun released released' s₃ t₃ hreleased => ?_
    exact .ok ((hclosed.append hunits).append hreleased).countUnits

theorem feedSnapshotBoundary_coupled (hs : s.Plain) :
    Coupled (Emits cfg rec s.txn) (fun _ _ => True) ((feedSnapshotBoundary rec).run s)
      ((feedSnapshotBoundary rec).run s.trim) := by
  have htrim : s.trim.txn.isSome = s.txn.isSome := Option.isSome_map
  simp only [feedSnapshotBoundary, EStateM.run_bind, EStateM.run_get, htrim]
  by_cases huntyped : rec.kind ≠ .snapshotBoundary ∨ rec.raw.isSome
  · simp only [if_pos huntyped]
    exact .error trivial
  · by_cases hopen : s.txn.isSome = true
    · simp only [if_neg huntyped, if_pos hopen]
      exact .error trivial
    · simp only [if_neg huntyped, if_neg hopen]
      refine (closeChunk_coupled cfg hs true rec s.txn).bind fun closed closed' s₁ t₁ h₁ => ?_
      have hboundary : Emits cfg rec s.txn [controlUnit rec] [controlUnit rec] s₁ t₁ :=
        .singleton (.single _ rfl) h₁.1.states
      exact .ok (h₁.1.append hboundary).countUnits

end Steps

end CdcFlight
