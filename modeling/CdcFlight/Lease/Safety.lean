import CdcFlight.Lib.Journal
import CdcFlight.Lease.Runners

/-!
# What the lease row protects

The lease row alone decides every race of acquisition, renewal and fencing: an open transaction
that was fenced has written the row, so no acquisition commits before it ends, and the row names
the last acquisition. Of a takeover only the predicate of its update is known, and the predicate
that a batch runner adds for an owner that it found dead says nothing of the kind of the owner.

## Main definitions

* `CdcFlight.holder`: the last acquisition in a log, unless the row was deleted since.
* `CdcFlight.Fleet.Consistent`: what every step preserves.
* `CdcFlight.Fleet.LeaseSafe`, `CdcFlight.Fleet.ReclaimsService`.

## Main results

* `CdcFlight.Fleet.leaseSafe_iff`: a run is safe when no batch runner executes its update on the
  live row of a service whose process it found dead, and only then.
* `CdcFlight.Fleet.epochsIncrease_run`: epochs increase until the row is deleted.
-/

namespace CdcFlight

open Lib

/-- The identity and the epoch that a row names. -/
def LeaseRow.key (row : LeaseRow) : String × ℕ := (row.leaseId, row.fencingEpoch)

@[simp] theorem LeaseRow.key_refreshed (row : LeaseRow) (current ttl : ℕ) :
    (row.refreshed current ttl).key = row.key := rfl

@[simp] theorem LeaseIdentity.key_row (self : LeaseIdentity) (current epoch : ℕ) :
    (self.row current epoch).key = (self.leaseId, epoch) := rfl

theorem LeaseRow.key_of_afterRelease {row row' : LeaseRow} {retain : Bool}
    (h : row.afterRelease retain = some row') : row'.key = row.key := by
  by_cases hr : retain
  · simp only [LeaseRow.afterRelease, hr, if_true, Option.some.injEq] at h
    rw [← h]
    rfl
  · simp [LeaseRow.afterRelease, hr] at h

theorem LeaseRow.key_of_refreshable {row : LeaseRow} {self : LeaseIdentity} {epoch current : ℕ}
    (h : row.refreshable self epoch current) : row.key = (self.leaseId, epoch) := by
  simp only [LeaseRow.refreshable, Bool.and_eq_true, decide_eq_true_eq] at h
  obtain ⟨⟨⟨⟨⟨⟨-, hlease⟩, hepoch⟩, -⟩, -⟩, -⟩, -⟩ := h
  exact Prod.ext hlease hepoch

theorem LeaseRow.key_of_matchesIdentity {row : LeaseRow} {self : LeaseIdentity} {epoch : ℕ}
    (h : row.matchesIdentity self epoch) : row.key = (self.leaseId, epoch) := by
  simp only [LeaseRow.matchesIdentity, Bool.and_eq_true, decide_eq_true_eq] at h
  obtain ⟨⟨⟨⟨⟨hlease, hepoch⟩, -⟩, -⟩, -⟩, -⟩ := h
  exact Prod.ext hlease hepoch

/-! ### The log -/

section Log

variable {R : Type}

/-- The holder after an event. -/
def holderAfter (last : Option (R × ℕ)) : LeaseEvent R → Option (R × ℕ)
  | .acquired r epoch _ _ => some (r, epoch)
  | .deleted => none
  | .dataCommitted _ _ => last

/-- The last acquisition, unless the row was deleted since. -/
def holder (log : List (LeaseEvent R)) : Option (R × ℕ) := log.foldl holderAfter none

@[simp] theorem holder_nil : holder ([] : List (LeaseEvent R)) = none := rfl

@[simp] theorem holder_append (log events : List (LeaseEvent R)) :
    holder (log ++ events) = events.foldl holderAfter (holder log) := List.foldl_append

/-- An acquisition raises the epoch, and a fenced transaction was fenced by the holder. -/
def Orderly (before : List (LeaseEvent R)) : LeaseEvent R → Prop
  | .acquired _ epoch _ _ => ∀ p, holder before = some p → p.2 < epoch
  | .dataCommitted r (some epoch) => holder before = some (r, epoch)
  | _ => True

/-- The epochs of acquisitions increase as long as the row is not deleted: of any two acquisitions
in the log without a deletion between them the later one has the higher epoch, by whomever. -/
def EpochsIncrease (log : List (LeaseEvent R)) : Prop :=
  ∀ before r epoch row time between r' epoch' row' time' after,
    log = before ++ .acquired r epoch row time ::
      (between ++ .acquired r' epoch' row' time' :: after) →
    .deleted ∉ between → epoch < epoch'

/-- As long as the row is not deleted the epoch of the holder does not fall. -/
theorem exists_holder_of_notMem {before between : List (LeaseEvent R)} {r : R} {epoch : ℕ}
    {row : Option LeaseRow} {time : ℕ}
    (h : EachAfter Orderly (before ++ .acquired r epoch row time :: between))
    (hdeleted : .deleted ∉ between) :
    ∃ p, holder (before ++ .acquired r epoch row time :: between) = some p ∧ epoch ≤ p.2 := by
  induction between using List.reverseRecOn with
  | nil => exact ⟨(r, epoch), by simp [holderAfter], le_rfl⟩
  | append_singleton between event ih =>
    rw [← List.cons_append, ← List.append_assoc] at h ⊢
    obtain ⟨hbetween, hevent⟩ := eachAfter_append_singleton.1 h
    obtain ⟨p, hp, hle⟩ := ih hbetween fun hmem => hdeleted (by simp [hmem])
    rw [holder_append, hp, List.foldl_cons, List.foldl_nil]
    cases event with
    | acquired r' epoch' row' time' =>
      have hlt := hevent p hp
      exact ⟨(r', epoch'), rfl, by simp only; omega⟩
    | deleted => simp at hdeleted
    | dataCommitted r' fence => exact ⟨p, rfl, hle⟩

theorem epochsIncrease_of_orderly {log : List (LeaseEvent R)} (h : EachAfter Orderly log) :
    EpochsIncrease log := by
  rintro before r epoch row time between r' epoch' row' time' after hlog hdeleted
  rw [← List.cons_append, ← List.append_assoc] at hlog
  rw [hlog] at h
  obtain ⟨p, hp, hle⟩ := exists_holder_of_notMem h.of_append hdeleted
  have hlt := h _ _ _ rfl p hp
  omega

variable (identity : R → LeaseIdentity)

/-- The row is one that a service has acquired. -/
def IsServiceRow (row : LeaseRow) : Prop :=
  ∃ r, (identity r).heartbeatBound.isSome ∧ row.leaseId = (identity r).leaseId

end Log

namespace Fleet

variable {R : Type} [DecidableEq R] (identity : R → LeaseIdentity)

/-- What every step preserves: the row names the holder, an open transaction that has written
keeps the identity and the epoch of the row, and one that was fenced has written. -/
structure Consistent (s : Fleet R) : Prop where
  holder : s.cell.committed.map LeaseRow.key =
    (holder s.log).map fun p => ((identity p.1).leaseId, p.2)
  pending : ∀ r x, s.cell.writer = some (r, x) →
    ∃ row, s.cell.committed = some row ∧ ∀ row', x = some row' → row'.key = row.key
  snapshots : ∀ r txn, (s.runners r).txn = some txn → txn.snapshot.Agrees s.cell
  fenced : ∀ r txn epoch, (s.runners r).txn = some txn → txn.fence = some epoch →
    s.cell.IsWriter r ∧ s.cell.committed.map LeaseRow.key = some ((identity r).leaseId, epoch)
  readings : ∀ r current oldEpoch deadOwner,
    (s.runners r).phase = .takingOver current oldEpoch deadOwner → current ≤ s.clock
  orderly : EachAfter Orderly s.log

variable {identity} {s : Fleet R} {r : R}

/-! ### What the parts of a step preserve -/

/-- A runner may be replaced when its transaction and its phase are as required. -/
theorem Consistent.setRunner (h : s.Consistent identity) {runner : Runner}
    (htxn : ∀ txn, runner.txn = some txn → txn.snapshot.Agrees s.cell ∧
      ∀ epoch, txn.fence = some epoch →
        s.cell.IsWriter r ∧ s.cell.committed.map LeaseRow.key = some ((identity r).leaseId, epoch))
    (hphase : ∀ current oldEpoch deadOwner,
      runner.phase = .takingOver current oldEpoch deadOwner → current ≤ s.clock) :
    (s.setRunner r runner).Consistent identity where
  holder := h.holder
  pending := h.pending
  snapshots r' txn ht := by
    by_cases hr : r' = r
    · subst hr
      simp only [Fleet.setRunner, Function.update_self] at ht
      exact (htxn txn ht).1
    · simp only [Fleet.setRunner, Function.update_of_ne hr] at ht
      exact h.snapshots r' txn ht
  fenced r' txn epoch ht he := by
    by_cases hr : r' = r
    · subst hr
      simp only [Fleet.setRunner, Function.update_self] at ht
      exact (htxn txn ht).2 epoch he
    · simp only [Fleet.setRunner, Function.update_of_ne hr] at ht
      exact h.fenced r' txn epoch ht he
  readings r' current oldEpoch deadOwner hp := by
    by_cases hr : r' = r
    · subst hr
      simp only [Fleet.setRunner, Function.update_self] at hp
      exact hphase current oldEpoch deadOwner hp
    · simp only [Fleet.setRunner, Function.update_of_ne hr] at hp
      exact h.readings r' current oldEpoch deadOwner hp
  orderly := h.orderly

/-- A call of `acquire` may go on to any phase whose reading of the clock is past. -/
theorem Consistent.proceed (h : s.Consistent identity) {inspection : Inspection}
    (hphase : ∀ current oldEpoch deadOwner,
      inspection.phase = .takingOver current oldEpoch deadOwner → current ≤ s.clock) :
    (s.proceed r inspection).Consistent identity :=
  h.setRunner (fun txn ht => ⟨h.snapshots r txn ht, fun epoch he => h.fenced r txn epoch ht he⟩)
    hphase

theorem Consistent.setPhase (h : s.Consistent identity) {phase : AcquirePhase}
    (hphase : ∀ current oldEpoch deadOwner, phase ≠ .takingOver current oldEpoch deadOwner) :
    (s.setPhase r phase).Consistent identity :=
  h.setRunner (fun txn ht => ⟨h.snapshots r txn ht, fun epoch he => h.fenced r txn epoch ht he⟩)
    (fun current oldEpoch deadOwner hp => absurd hp (hphase current oldEpoch deadOwner))

omit [DecidableEq R] in
/-- A write of its own leaves a row that names the new holder; no transaction has written. -/
theorem Consistent.writeNow (h : s.Consistent identity) {row : Option LeaseRow}
    {events : List (LeaseEvent R)}
    (hrow : row.map LeaseRow.key =
      (CdcFlight.holder (s.log ++ events)).map fun p => ((identity p.1).leaseId, p.2))
    (horderly : EachAfter Orderly (s.log ++ events)) :
    (s.writeNow row events).Consistent identity := by
  rw [Fleet.writeNow]
  cases hw : s.cell.writeNow row with
  | none => exact h
  | some cell =>
    obtain ⟨hnone, rfl⟩ := Cell.writeNow_eq_some hw
    exact
      { holder := hrow
        pending := by
          intro r x hx
          simp only [hnone] at hx
          exact absurd hx (by simp)
        snapshots := by
          intro r txn ht
          have hle := (h.snapshots r txn ht).le
          exact ⟨by simp only; omega, fun heq => by simp only at heq; omega⟩
        fenced := by
          intro r txn epoch ht he
          obtain ⟨x, hx⟩ := (h.fenced r txn epoch ht he).1
          rw [hnone] at hx
          exact absurd hx (by simp)
        readings := h.readings
        orderly := horderly }

/-- An open transaction that writes the row has read one with the identity and the epoch of the
committed row: its own last write, or the committed row itself. -/
theorem Consistent.key_of_write (h : s.Consistent identity) {txn : DataTransaction}
    {row : LeaseRow} {x : Option LeaseRow} {cell : Cell R (Option LeaseRow)}
    (ht : (s.runners r).txn = some txn) (hread : s.cell.read r txn.snapshot = some row)
    (hwrite : s.cell.write r txn.snapshot x = some cell) :
    s.cell.committed.map LeaseRow.key = some row.key := by
  obtain ⟨-, ⟨y, hy⟩ | ⟨hnone, hversion⟩⟩ := Cell.write_eq_some hwrite
  · obtain ⟨row', hcommitted, hkey⟩ := h.pending r y hy
    rw [Cell.read_of_isWriter hy] at hread
    rw [hcommitted, Option.map_some, hkey row hread]
  · rw [Cell.read_of_writer_none hnone, (h.snapshots r txn ht).contents hversion] at hread
    rw [hread, Option.map_some]

/-- An open transaction may write a row that keeps identity and epoch, or none. -/
theorem Consistent.write (h : s.Consistent identity) {txn : DataTransaction}
    {row : LeaseRow} {x : Option LeaseRow} {cell : Cell R (Option LeaseRow)}
    (ht : (s.runners r).txn = some txn) (hread : s.cell.read r txn.snapshot = some row)
    (hwrite : s.cell.write r txn.snapshot x = some cell)
    (hx : ∀ row', x = some row' → row'.key = row.key) :
    ({ s with cell := cell } : Fleet R).Consistent identity := by
  have hkey := h.key_of_write ht hread hwrite
  obtain ⟨rfl, hcase⟩ := Cell.write_eq_some hwrite
  obtain ⟨committed, hcommitted, hcommittedKey⟩ := Option.map_eq_some_iff.1 hkey
  exact
    { holder := h.holder
      pending := by
        intro r' x' hx'
        obtain ⟨rfl, rfl⟩ := Prod.mk.inj (Option.some.inj hx')
        exact ⟨committed, hcommitted, fun row' hrow' => (hx row' hrow').trans hcommittedKey.symm⟩
      snapshots := fun r' txn' ht' =>
        ⟨(h.snapshots r' txn' ht').le, (h.snapshots r' txn' ht').contents⟩
      fenced := by
        intro r' txn' epoch ht' he'
        obtain ⟨hwriter, hcommitted'⟩ := h.fenced r' txn' epoch ht' he'
        refine ⟨?_, hcommitted'⟩
        rcases hcase with hr | ⟨hnone, -⟩
        · rw [hwriter.unique hr]
          exact ⟨x, rfl⟩
        · obtain ⟨y, hy⟩ := hwriter
          rw [hnone] at hy
          exact absurd hy (by simp)
      readings := h.readings
      orderly := h.orderly }

/-- The transaction of a runner ends, with the row as it leaves it; no other is fenced. -/
theorem Consistent.endTxn (h : s.Consistent identity) {cell : Cell R (Option LeaseRow)}
    {log : List (LeaseEvent R)}
    (hholder : cell.committed.map LeaseRow.key =
      (CdcFlight.holder log).map fun p => ((identity p.1).leaseId, p.2))
    (hpending : ∀ r' x, cell.writer = some (r', x) → s.cell.writer = some (r', x) ∧ r' ≠ r ∧
      cell.committed = s.cell.committed)
    (hsnapshots : ∀ snap : Cell.Snapshot (Option LeaseRow), snap.Agrees s.cell → snap.Agrees cell)
    (hothers : ∀ r' ≠ r, s.cell.IsWriter r' →
      cell.IsWriter r' ∧ cell.committed = s.cell.committed)
    (horderly : EachAfter Orderly log) :
    ({ s with
      cell := cell
      runners := Function.update s.runners r { s.runners r with txn := none }
      log := log } : Fleet R).Consistent identity where
  holder := hholder
  pending r' x hx := by
    obtain ⟨hx', -, hcommitted⟩ := hpending r' x hx
    obtain ⟨row, hrow, hkey⟩ := h.pending r' x hx'
    exact ⟨row, hcommitted.trans hrow, hkey⟩
  snapshots r' txn ht := by
    by_cases hr : r' = r
    · subst hr
      simp at ht
    · simp only [Function.update_of_ne hr] at ht
      exact hsnapshots _ (h.snapshots r' txn ht)
  fenced r' txn epoch ht he := by
    by_cases hr : r' = r
    · subst hr
      simp at ht
    · simp only [Function.update_of_ne hr] at ht
      obtain ⟨hwriter, hcommitted⟩ := h.fenced r' txn epoch ht he
      obtain ⟨hwriter', hsame⟩ := hothers r' hr hwriter
      exact ⟨hwriter', by simp only [hsame, hcommitted]⟩
  readings r' current oldEpoch deadOwner hp := by
    by_cases hr : r' = r
    · subst hr
      simp only [Function.update_self] at hp
      exact h.readings r' current oldEpoch deadOwner hp
    · simp only [Function.update_of_ne hr] at hp
      exact h.readings r' current oldEpoch deadOwner hp
  orderly := horderly

omit [DecidableEq R] in
/-- A fenced transaction that commits was fenced by the holder. -/
theorem Consistent.orderly_dataCommitted (hids : Function.Injective fun r => (identity r).leaseId)
    (h : s.Consistent identity) {txn : DataTransaction} (ht : (s.runners r).txn = some txn) :
    Orderly s.log (.dataCommitted r txn.fence) := by
  cases hf : txn.fence with
  | none => trivial
  | some epoch =>
    obtain ⟨-, hcommitted⟩ := h.fenced r txn epoch ht hf
    rw [h.holder] at hcommitted
    obtain ⟨⟨r', epoch'⟩, hholder, hkey⟩ := Option.map_eq_some_iff.1 hcommitted
    obtain ⟨hlease, rfl⟩ := Prod.mk.inj hkey
    have hr : r' = r := hids hlease
    rw [Orderly, hholder, hr]

/-- A data transaction may be committed: the row that it has written names the holder still, or is
deleted. -/
theorem Consistent.commit (hids : Function.Injective fun r => (identity r).leaseId)
    (h : s.Consistent identity) (r : R) : (s.commit r).Consistent identity := by
  rw [Fleet.commit]
  cases ht : (s.runners r).txn with
  | none => exact h
  | some txn =>
    have hlog : EachAfter Orderly (s.log ++ [.dataCommitted r txn.fence]) :=
      eachAfter_append_singleton.2 ⟨h.orderly, h.orderly_dataCommitted hids ht⟩
    simp only
    by_cases hw : s.cell.IsWriter r
    · obtain ⟨x, hx⟩ := hw
      obtain ⟨row, hrow, hkey⟩ := h.pending r x hx
      rw [Cell.commit_of_writer hx]
      refine h.endTxn ?_ (by simp) ?_ ?_ ?_
      · -- the row is deleted, or keeps its identity and its epoch
        cases hxrow : x with
        | none => simp [hrow, holderAfter]
        | some row' =>
          have hholder := h.holder
          rw [hrow] at hholder
          simpa [holderAfter, hkey row' hxrow] using hholder
      · intro snap hsnap
        have hle := hsnap.le
        exact ⟨by simp only; omega, fun heq => by simp only at heq; omega⟩
      · intro r' hr' hw'
        exact absurd (hw'.unique ⟨x, hx⟩) hr'
      · cases hxrow : x with
        | none =>
          have hdeleted := (eachAfter_append_singleton (a := LeaseEvent.deleted)).2 ⟨hlog, trivial⟩
          simpa [hrow] using hdeleted
        | some row' => simpa using hlog
    · rw [Cell.commit_of_not_isWriter hw]
      have hdeleted : (s.cell.committed.isSome && s.cell.committed.isNone) = false := by
        cases s.cell.committed <;> rfl
      rw [hdeleted]
      refine h.endTxn ?_ ?_ (fun snap hsnap => hsnap) (fun r' _ hw' => ⟨hw', rfl⟩) ?_
      · simpa [holderAfter] using h.holder
      · rintro r' x hx
        refine ⟨hx, fun hr => hw ?_, rfl⟩
        rw [← hr]
        exact ⟨x, hx⟩
      · simpa using hlog

theorem Consistent.rollback (h : s.Consistent identity) (r : R) :
    (s.rollback r).Consistent identity := by
  rw [Fleet.rollback]
  cases ht : (s.runners r).txn with
  | none => exact h
  | some txn =>
    by_cases hw : s.cell.IsWriter r
    · obtain ⟨x, hx⟩ := hw
      rw [Cell.rollback_of_writer hx]
      exact h.endTxn h.holder (by simp) (fun snap hsnap => ⟨hsnap.le, hsnap.contents⟩)
        (fun r' hr' hw' => absurd (hw'.unique ⟨x, hx⟩) hr') h.orderly
    · rw [Cell.rollback_of_not_isWriter hw]
      refine h.endTxn h.holder ?_ (fun snap hsnap => hsnap) (fun r' _ hw' => ⟨hw', rfl⟩) h.orderly
      rintro r' x hx
      refine ⟨hx, fun hr => hw ?_, rfl⟩
      rw [← hr]
      exact ⟨x, hx⟩

/-! ### What every step preserves -/

theorem Consistent.insertRow (h : s.Consistent identity) (r : R) :
    (s.insertRow identity r).Consistent identity := by
  rw [Fleet.insertRow]
  cases hphase : (s.runners r).phase with
  | inserting current =>
    cases hcommitted : s.cell.committed with
    | some row => exact h.setPhase (by simp)
    | none =>
      have hnone : CdcFlight.holder s.log = none := by
        simpa [hcommitted] using h.holder.symm
      refine (h.writeNow ?_ ?_).setPhase (by simp)
      · simp [holderAfter]
      · refine eachAfter_append_singleton.2 ⟨h.orderly, ?_⟩
        simp [Orderly, hnone]
  | _ => exact h

theorem Consistent.takeover (h : s.Consistent identity) (r : R) :
    (s.takeover identity r).Consistent identity := by
  rw [Fleet.takeover]
  cases hphase : (s.runners r).phase with
  | takingOver current oldEpoch deadOwner =>
    cases hcommitted : s.cell.committed with
    | none => exact h.setPhase (by simp)
    | some row =>
      simp only
      by_cases htake : row.takeable current oldEpoch deadOwner
      · rw [if_pos htake]
        by_cases hwriter : s.cell.writer.isSome
        · rw [if_pos hwriter]
          exact h
        · rw [if_neg hwriter]
          refine (h.writeNow ?_ ?_).setPhase (by simp)
          · simp [holderAfter]
          · refine eachAfter_append_singleton.2 ⟨h.orderly, fun p hp => ?_⟩
            -- the epoch of the holder is the one that the update has found
            have hholder := h.holder
            simp only [hcommitted, hp, Option.map_some, Option.some.injEq, LeaseRow.key,
              Prod.mk.injEq] at hholder
            simp only [LeaseRow.takeable, Bool.and_eq_true, decide_eq_true_eq] at htake
            rw [nextEpoch]
            omega
      · rw [if_neg htake]
        exact h.setPhase (by simp)
  | _ => exact h

theorem Consistent.fence (h : s.Consistent identity) (r : R) (current observed : ℕ) :
    (s.fence identity r current observed).Consistent identity := by
  rw [Fleet.fence]
  cases ht : (s.runners r).txn with
  | none => exact h
  | some txn =>
    cases hepoch : (s.runners r).epoch with
    | none => exact h
    | some epoch =>
      simp only
      cases hread : s.cell.read r txn.snapshot with
      | none => exact h
      | some row =>
        simp only
        by_cases hrefresh : row.refreshable (identity r) epoch current
        · rw [if_pos hrefresh]
          cases hwrite : s.cell.write r txn.snapshot
              (some (row.refreshed current (identity r).ttl)) with
          | none => exact h
          | some cell =>
            have hwritten := h.write ht hread hwrite (by simp +contextual [eq_comm])
            by_cases hlive : observed < (row.refreshed current (identity r).ttl).expiresAt
            · simp only [if_pos hlive]
              have hkey := h.key_of_write ht hread hwrite
              obtain ⟨rfl, -⟩ := Cell.write_eq_some hwrite
              refine hwritten.setRunner ?_ (h.readings r)
              rintro txn' htxn'
              obtain rfl := Option.some.inj htxn'
              refine ⟨hwritten.snapshots r txn ht, fun epoch' he' => ?_⟩
              obtain rfl := Option.some.inj he'
              exact ⟨⟨_, rfl⟩, hkey.trans (congrArg some (LeaseRow.key_of_refreshable hrefresh))⟩
            · simp only [if_neg hlive]
              exact hwritten
        · rw [if_neg hrefresh]
          exact h

omit [DecidableEq R] in
theorem Consistent.renewControl (h : s.Consistent identity) (r : R) (current : ℕ) :
    (s.renewControl identity r current).Consistent identity := by
  rw [Fleet.renewControl]
  cases hepoch : (s.runners r).epoch with
  | none => exact h
  | some epoch =>
    cases hcommitted : s.cell.committed with
    | none => exact h
    | some row =>
      simp only
      by_cases hrefresh : row.refreshable (identity r) epoch current
      · rw [if_pos hrefresh]
        refine h.writeNow ?_ (by simpa using h.orderly)
        simpa [hcommitted] using h.holder
      · rw [if_neg hrefresh]
        exact h

omit [DecidableEq R] in
theorem Consistent.release (h : s.Consistent identity) (r : R) (retain : Bool) :
    (s.release identity r retain).Consistent identity := by
  rw [Fleet.release]
  cases hepoch : (s.runners r).epoch with
  | none => exact h
  | some epoch =>
    cases hcommitted : s.cell.committed with
    | none => exact h
    | some row =>
      simp only
      by_cases hown : row.releasable (identity r) epoch
      · rw [if_pos hown]
        by_cases hretain : retain
        · refine h.writeNow ?_ (by simpa [hretain] using h.orderly)
          have hholder := h.holder
          rw [hcommitted] at hholder
          simpa [LeaseRow.afterRelease, hretain, LeaseRow.key] using hholder
        · refine h.writeNow ?_ ?_
          · simp [LeaseRow.afterRelease, hretain, holderAfter]
          · rw [if_neg hretain]
            exact eachAfter_append_singleton.2 ⟨h.orderly, trivial⟩
      · rw [if_neg hown]
        exact h

theorem Consistent.releaseInside (h : s.Consistent identity) (r : R) (retain : Bool) :
    (s.releaseInside identity r retain).Consistent identity := by
  rw [Fleet.releaseInside]
  cases ht : (s.runners r).txn with
  | none => exact h
  | some txn =>
    cases hepoch : (s.runners r).epoch with
    | none => exact h
    | some epoch =>
      simp only
      cases hread : s.cell.read r txn.snapshot with
      | none => exact h
      | some row =>
        simp only
        by_cases hown : row.releasable (identity r) epoch
        · rw [if_pos hown]
          cases hwrite : s.cell.write r txn.snapshot (row.afterRelease retain) with
          | none => exact h
          | some cell =>
            exact h.write ht hread hwrite fun row' hrow' => LeaseRow.key_of_afterRelease hrow'
        · rw [if_neg hown]
          exact h

/-- A takeover is prepared with the reading of the clock just made. -/
theorem current_le_of_inspection {inspection : Inspection} {current clock : ℕ}
    (hcurrent : current ≤ clock)
    (h : ∀ current' oldEpoch deadOwner,
      inspection.phase = .takingOver current' oldEpoch deadOwner → current' = current) :
    ∀ current' oldEpoch deadOwner,
      inspection.phase = .takingOver current' oldEpoch deadOwner → current' ≤ clock := by
  intro current' oldEpoch deadOwner hp
  rw [h current' oldEpoch deadOwner hp]
  exact hcurrent

theorem phase_inspectRow {self : LeaseIdentity} {epoch : Option ℕ} {current : ℕ}
    {alive alive' : Bool} {row : Option LeaseRow} {current' oldEpoch : ℕ}
    {deadOwner : Option (String × ℕ)}
    (h : (inspectRow self epoch current alive alive' row).phase =
      .takingOver current' oldEpoch deadOwner) : current' = current := by
  simp only [inspectRow, prepareTakeover] at h
  split at h <;> grind

theorem phase_pollRow {self : LeaseIdentity} {epoch : Option ℕ} {current : ℕ}
    {row : Option LeaseRow} {current' oldEpoch : ℕ} {deadOwner : Option (String × ℕ)} :
    (pollRow self epoch current row).phase ≠ .takingOver current' oldEpoch deadOwner := by
  simp only [pollRow]
  grind

theorem phase_afterWait {current : ℕ} {row : Option LeaseRow} {current' oldEpoch : ℕ}
    {deadOwner : Option (String × ℕ)}
    (h : (afterWait current row).phase = .takingOver current' oldEpoch deadOwner) :
    current' = current := by
  simp only [afterWait, prepareTakeover] at h
  grind

/-- Every step leaves the fleet consistent. -/
theorem Consistent.step (hids : Function.Injective fun r => (identity r).leaseId)
    (h : s.Consistent identity) (a : LeaseStep R) : (s.step identity a).Consistent identity := by
  cases a with
  | tick =>
    exact { h with readings := fun r c o d hp => (h.readings r c o d hp).trans (Nat.le_succ _) }
  | inspect r current alive alive' =>
    simp only [Fleet.step]
    by_cases hguard : (s.runners r).phase = .idle ∧ current ≤ s.clock
    · rw [if_pos hguard]
      exact h.proceed (current_le_of_inspection hguard.2 fun _ _ _ => phase_inspectRow)
    · rw [if_neg hguard]
      exact h
  | poll r current =>
    simp only [Fleet.step]
    by_cases hguard : (s.runners r).phase = .waiting ∧ current ≤ s.clock
    · rw [if_pos hguard]
      exact h.proceed fun _ _ _ hp => absurd hp phase_pollRow
    · rw [if_neg hguard]
      exact h
  | reread r current =>
    simp only [Fleet.step]
    by_cases hguard : (s.runners r).phase = .waited ∧ current ≤ s.clock
    · rw [if_pos hguard]
      exact h.proceed (current_le_of_inspection hguard.2 fun _ _ _ => phase_afterWait)
    · rw [if_neg hguard]
      exact h
  | insert r => exact h.insertRow r
  | takeover r => exact h.takeover r
  | verify r =>
    simp only [Fleet.step]
    cases (s.runners r).phase with
    | verifying next => exact h.setPhase (by simp)
    | _ => exact h
  | abandon r => exact h.setPhase (by simp)
  | begin r =>
    simp only [Fleet.step]
    by_cases hopen : (s.runners r).txn.isNone
    · rw [if_pos hopen]
      refine h.setRunner ?_ (h.readings r)
      rintro txn htxn
      obtain rfl := Option.some.inj htxn
      exact ⟨Cell.agrees_snapshot s.cell, by simp⟩
    · rw [if_neg hopen]
      exact h
  | fence r current observed =>
    simp only [Fleet.step]
    by_cases hguard : current ≤ observed ∧ observed ≤ s.clock
    · rw [if_pos hguard]
      exact h.fence r current observed
    · rw [if_neg hguard]
      exact h
  | commit r => exact h.commit hids r
  | rollback r => exact h.rollback r
  | renewControl r current =>
    simp only [Fleet.step]
    by_cases hguard : current ≤ s.clock
    · rw [if_pos hguard]
      exact h.renewControl r current
    · rw [if_neg hguard]
      exact h
  | release r retain => exact h.release r retain
  | releaseInside r retain => exact h.releaseInside r retain

/-- Every run leaves the fleet consistent. -/
theorem consistent_run (hids : Function.Injective fun r => (identity r).leaseId)
    (steps : List (LeaseStep R)) : (run identity steps).Consistent identity := by
  induction steps using List.reverseRecOn with
  | nil =>
    exact
      { holder := rfl
        pending := by simp [run]
        snapshots := by simp [run]
        fenced := by simp [run]
        readings := by simp [run]
        orderly := eachAfter_nil }
  | append_singleton steps a ih =>
    rw [run, List.foldl_append]
    exact ih.step hids a

/-! ### Takeovers of services -/

omit [DecidableEq R] in
theorem log_writeNow (s : Fleet R) (row : Option LeaseRow) (events : List (LeaseEvent R)) :
    (s.writeNow row events).log = s.log ∨
      s.cell.writer = none ∧ (s.writeNow row events).log = s.log ++ events := by
  rw [Fleet.writeNow]
  cases hw : s.cell.writeNow row with
  | none => exact Or.inl rfl
  | some cell => exact Or.inr ⟨(Cell.writeNow_eq_some hw).1, rfl⟩

/-- A runner replaces the committed row. -/
structure Replaces (s : Fleet R) (r : R) (epoch : ℕ) (row : LeaseRow) (time current : ℕ)
    (deadOwner : Option (String × ℕ)) : Prop where
  phase : (s.runners r).phase = .takingOver current row.fencingEpoch deadOwner
  committed : s.cell.committed = some row
  writer : s.cell.writer = none
  takeable : row.takeable current row.fencingEpoch deadOwner
  epoch : epoch = nextEpoch row.fencingEpoch
  time : time = s.clock

variable (identity) in
theorem log_insertRow (s : Fleet R) (r : R) : (s.insertRow identity r).log = s.log ∨
    (s.insertRow identity r).log = s.log ++ [.acquired r 1 none s.clock] := by
  rw [Fleet.insertRow]
  cases (s.runners r).phase with
  | inserting current =>
    cases s.cell.committed with
    | some row => exact Or.inl rfl
    | none => exact (log_writeNow s _ _).imp id And.right
  | _ => exact Or.inl rfl

variable (identity) in
theorem log_takeover (s : Fleet R) (r : R) : (s.takeover identity r).log = s.log ∨
    ∃ epoch row time current deadOwner, s.Replaces r epoch row time current deadOwner ∧
      (s.takeover identity r).log = s.log ++ [.acquired r epoch (some row) time] := by
  rw [Fleet.takeover]
  cases hphase : (s.runners r).phase with
  | takingOver current oldEpoch deadOwner =>
    cases hcommitted : s.cell.committed with
    | none => exact Or.inl rfl
    | some row =>
      simp only
      by_cases htake : row.takeable current oldEpoch deadOwner
      · rw [if_pos htake]
        by_cases hwriter : s.cell.writer.isSome
        · rw [if_pos hwriter]
          exact Or.inl rfl
        · rw [if_neg hwriter]
          rcases log_writeNow s (some ((identity r).row current (nextEpoch oldEpoch)))
            [.acquired r (nextEpoch oldEpoch) (some row) s.clock] with hlog | ⟨hnone, hlog⟩
          · exact Or.inl hlog
          · have hepoch : row.fencingEpoch = oldEpoch := by
              simp only [LeaseRow.takeable, Bool.and_eq_true, decide_eq_true_eq] at htake
              exact htake.1
            subst hepoch
            exact Or.inr ⟨_, row, _, current, deadOwner,
              ⟨hphase, hcommitted, hnone, htake, rfl, rfl⟩, hlog⟩
      · rw [if_neg htake]
        exact Or.inl rfl
  | _ => exact Or.inl rfl

theorem log_fence (s : Fleet R) (r : R) (current observed : ℕ) :
    (s.fence identity r current observed).log = s.log := by
  simp only [Fleet.fence, Fleet.setRunner]
  grind

theorem log_commit (s : Fleet R) (r : R) : (s.commit r).log = s.log ∨
    ∃ fence, (s.commit r).log = s.log ++ [.dataCommitted r fence] ∨
      (s.commit r).log = s.log ++ [.dataCommitted r fence, .deleted] := by
  rw [Fleet.commit]
  cases (s.runners r).txn with
  | none => exact Or.inl rfl
  | some txn =>
    refine Or.inr ⟨txn.fence, ?_⟩
    simp only
    by_cases hdeleted : (s.cell.committed.isSome && (s.cell.commit r).committed.isNone) = true
    · exact Or.inr (by rw [if_pos hdeleted])
    · exact Or.inl (by rw [if_neg hdeleted])

theorem log_rollback (s : Fleet R) (r : R) : (s.rollback r).log = s.log := by
  rw [Fleet.rollback]
  cases (s.runners r).txn <;> rfl

omit [DecidableEq R] in
theorem log_renewControl (s : Fleet R) (r : R) (current : ℕ) :
    (s.renewControl identity r current).log = s.log := by
  rw [Fleet.renewControl]
  cases (s.runners r).epoch with
  | none => rfl
  | some epoch =>
    cases s.cell.committed with
    | none => rfl
    | some row =>
      simp only
      by_cases hrefresh : row.refreshable (identity r) epoch current
      · rw [if_pos hrefresh]
        rcases log_writeNow s (some (row.refreshed current (identity r).ttl)) [] with h | ⟨-, h⟩
        · exact h
        · rw [h, List.append_nil]
      · rw [if_neg hrefresh]

variable (identity) in
omit [DecidableEq R] in
theorem log_release (s : Fleet R) (r : R) (retain : Bool) :
    (s.release identity r retain).log = s.log ∨
      (s.release identity r retain).log = s.log ++ [.deleted] := by
  rw [Fleet.release]
  cases (s.runners r).epoch with
  | none => exact Or.inl rfl
  | some epoch =>
    cases s.cell.committed with
    | none => exact Or.inl rfl
    | some row =>
      simp only
      by_cases hown : row.releasable (identity r) epoch
      · rw [if_pos hown]
        rcases log_writeNow s (row.afterRelease retain) (if retain then [] else [.deleted]) with
          h | ⟨-, h⟩
        · exact Or.inl h
        · by_cases hretain : retain
          · exact Or.inl (by rw [h, if_pos hretain, List.append_nil])
          · exact Or.inr (by rw [h, if_neg hretain])
      · rw [if_neg hown]
        exact Or.inl rfl

theorem log_releaseInside (s : Fleet R) (r : R) (retain : Bool) :
    (s.releaseInside identity r retain).log = s.log := by
  simp only [Fleet.releaseInside]
  grind

/-- Only the update of a takeover replaces a row. -/
theorem replaces_of_mem_log {a : LeaseStep R} {epoch : ℕ} {row : LeaseRow} {time : ℕ}
    (h : .acquired r epoch (some row) time ∈ (s.step identity a).log) :
    .acquired r epoch (some row) time ∈ s.log ∨
      a = .takeover r ∧ ∃ current deadOwner, s.Replaces r epoch row time current deadOwner := by
  have hsame (hlog : (s.step identity a).log = s.log) :
      .acquired r epoch (some row) time ∈ s.log := by
    rw [← hlog]
    exact h
  cases a with
  | insert r' =>
    rcases log_insertRow identity s r' with hlog | hlog
    · exact Or.inl (hsame hlog)
    · rw [Fleet.step, hlog] at h
      exact Or.inl (by simpa using h)
  | takeover r' =>
    rcases log_takeover identity s r' with hlog | ⟨_, _, _, current, dead, hrep, hlog⟩
    · exact Or.inl (hsame hlog)
    · rw [Fleet.step, hlog, List.mem_append, List.mem_singleton] at h
      rcases h with h | h
      · exact Or.inl h
      · simp only [LeaseEvent.acquired.injEq, Option.some.injEq] at h
        obtain ⟨rfl, rfl, rfl, rfl⟩ := h
        exact Or.inr ⟨rfl, current, dead, hrep⟩
  | commit r' =>
    rcases log_commit s r' with hlog | ⟨fence, hlog | hlog⟩
    · exact Or.inl (hsame hlog)
    · rw [Fleet.step, hlog] at h
      exact Or.inl (by simpa using h)
    · rw [Fleet.step, hlog] at h
      exact Or.inl (by simpa using h)
  | release r' retain =>
    rcases log_release identity s r' retain with hlog | hlog
    · exact Or.inl (hsame hlog)
    · rw [Fleet.step, hlog] at h
      exact Or.inl (by simpa using h)
  | fence r' current observed =>
    refine Or.inl (hsame ?_)
    simp only [Fleet.step]
    by_cases hguard : current ≤ observed ∧ observed ≤ s.clock
    · rw [if_pos hguard, log_fence]
    · rw [if_neg hguard]
  | renewControl r' current =>
    refine Or.inl (hsame ?_)
    simp only [Fleet.step]
    by_cases hguard : current ≤ s.clock
    · rw [if_pos hguard, log_renewControl]
    · rw [if_neg hguard]
  | rollback r' => exact Or.inl (hsame (log_rollback s r'))
  | releaseInside r' retain => exact Or.inl (hsame (log_releaseInside s r' retain))
  | tick => exact Or.inl h
  | abandon r' => exact Or.inl h
  | _ =>
    -- the other steps leave the table as it is
    refine Or.inl (hsame ?_)
    simp only [Fleet.step, Fleet.proceed, Fleet.setPhase, Fleet.setRunner]
    grind

variable (identity) in
/-- The update of a takeover that replaces a row is logged. -/
theorem Replaces.mem_log {epoch : ℕ} {row : LeaseRow} {time current : ℕ}
    {deadOwner : Option (String × ℕ)} (h : s.Replaces r epoch row time current deadOwner) :
    .acquired r epoch (some row) time ∈ (s.step identity (.takeover r)).log := by
  have htake := h.takeable
  simp [Fleet.step, Fleet.takeover, h.phase, h.committed, h.writer, htake, Fleet.setPhase,
    Fleet.setRunner, Fleet.writeNow, Cell.writeNow, h.epoch, h.time]

variable (identity) in
/-- A batch runner executes its update with the host and the pid of an owner that it found dead,
on the row of a service that is neither released nor expired. -/
def ReclaimsService (s : Fleet R) : LeaseStep R → Prop
  | .takeover r => ∃ current row,
      (s.runners r).phase = .takingOver current row.fencingEpoch (some (row.host, row.pid)) ∧
        s.cell.committed = some row ∧ s.cell.writer = none ∧ IsServiceRow identity row ∧
        row.released = false ∧ s.clock < row.expiresAt
  | _ => False

variable (identity) in
/-- What the lease promises. -/
structure LeaseSafe (s : Fleet R) : Prop where
  /-- At most one identity matches a live row. -/
  unique : ∀ row r r' epoch epoch', s.cell.committed = some row → s.clock < row.expiresAt →
    row.matchesIdentity (identity r) epoch → row.matchesIdentity (identity r') epoch' →
      r = r' ∧ epoch = epoch'
  /-- A service is replaced only after its lease expired or was released. -/
  respected : ∀ r epoch row time, .acquired r epoch (some row) time ∈ s.log →
    IsServiceRow identity row → row.released ∨ row.expiresAt ≤ time
  /-- When a fenced transaction commits, no acquisition is later than the one it was fenced
  under. -/
  fenced : ∀ before r epoch after, s.log = before ++ .dataCommitted r (some epoch) :: after →
    holder before = some (r, epoch)

/-- A step keeps what is promised of services unless it reclaims one. -/
theorem respected_step (h : s.Consistent identity) {a : LeaseStep R}
    (hrespected : ∀ r epoch row time, .acquired r epoch (some row) time ∈ s.log →
      IsServiceRow identity row → row.released ∨ row.expiresAt ≤ time)
    (ha : ¬ s.ReclaimsService identity a) (r : R) (epoch : ℕ) (row : LeaseRow) (time : ℕ)
    (hmem : .acquired r epoch (some row) time ∈ (s.step identity a).log)
    (hservice : IsServiceRow identity row) : row.released ∨ row.expiresAt ≤ time := by
  rcases replaces_of_mem_log hmem with hold | ⟨rfl, current, deadOwner, hrep⟩
  · exact hrespected r epoch row time hold hservice
  · by_contra hlive
    obtain ⟨hheld, hunexpired⟩ := not_or.1 hlive
    rw [hrep.time] at hunexpired
    have hcurrent := h.readings r current _ _ hrep.phase
    -- neither released nor expired: the row satisfies the predicate of the dead owner
    have htake := hrep.takeable
    have hexpires : ¬ row.expiresAt ≤ current := by omega
    simp only [LeaseRow.takeable, decide_true, Bool.true_and, hheld, hexpires, decide_false,
      Bool.false_or, decide_eq_true_eq] at htake
    refine ha ⟨current, row, ?_, hrep.committed, hrep.writer, hservice, by simpa using hheld,
      by omega⟩
    rw [hrep.phase, htake]

/-- In every state of a run what the lease promises holds, if and only if in no state a batch
runner executes its update with the host and the pid of an owner that it found dead on the live row
of a service. -/
theorem leaseSafe_iff (hids : Function.Injective fun r => (identity r).leaseId)
    (steps : List (LeaseStep R)) :
    (∀ done todo, steps = done ++ todo → (run identity done).LeaseSafe identity) ↔
      EachAfter (fun done a => ¬ (run identity done).ReclaimsService identity a) steps := by
  have hrun (done : List (LeaseStep R)) (a : LeaseStep R) :
      run identity (done ++ [a]) = (run identity done).step identity a := by
    simp [run]
  constructor
  · rintro hsafe done a todo hsteps hreclaims
    cases a with
    | takeover r =>
      obtain ⟨current, row, hphase, hcommitted, hwriter, hservice, hheld, hlive⟩ := hreclaims
      have hrep : (run identity done).Replaces r (nextEpoch row.fencingEpoch) row
          (run identity done).clock current (some (row.host, row.pid)) :=
        ⟨hphase, hcommitted, hwriter, by simp [LeaseRow.takeable], rfl, rfl⟩
      have hmem := hrep.mem_log identity
      rw [← hrun] at hmem
      have hrespected := (hsafe (done ++ [.takeover r]) todo (by simp [hsteps])).respected
        _ _ _ _ hmem hservice
      rw [hheld] at hrespected
      have hexpired := hrespected.resolve_left (by simp)
      omega
    | _ => exact hreclaims
  · intro hsteps done todo hdone
    subst hdone
    have hconsistent := consistent_run hids done
    refine ⟨?_, ?_, fun before r epoch after hlog => hconsistent.orderly before _ after hlog⟩
    · intro row r r' epoch epoch' _ _ hmatch hmatch'
      have hkey := (LeaseRow.key_of_matchesIdentity hmatch).symm.trans
        (LeaseRow.key_of_matchesIdentity hmatch')
      obtain ⟨hlease, rfl⟩ := Prod.mk.inj hkey
      exact ⟨hids hlease, rfl⟩
    · have hdone := hsteps.of_append
      clear hsteps hconsistent
      induction done using List.reverseRecOn with
      | nil => simp [run]
      | append_singleton done a ih =>
        obtain ⟨hdone', ha⟩ := eachAfter_append_singleton.1 hdone
        rw [hrun]
        exact respected_step (consistent_run hids done) (ih hdone') ha

/-- In every run the epochs of acquisitions increase as long as the row is not deleted. -/
theorem epochsIncrease_run (hids : Function.Injective fun r => (identity r).leaseId)
    (steps : List (LeaseStep R)) : EpochsIncrease (run identity steps).log :=
  epochsIncrease_of_orderly (consistent_run hids steps).orderly

end Fleet

/-! ### A service and a batch runner on one host -/

namespace Accounts

open Fleet

/-- The batch runner is `true`. -/
def runners : Bool → LeaseIdentity
  | false =>
    { leaseId := "l1", ownerId := "o1", serviceId := "svc", workerGeneration := "g1",
      host := "h", pid := 17, ttl := 60, heartbeatBound := some 15 }
  | true =>
    { leaseId := "l2", ownerId := "o2", serviceId := "o2", workerGeneration := "o2",
      host := "h", pid := 18, ttl := 60 }

theorem runners_injective : Function.Injective fun r => (runners r).leaseId := by
  intro r r' h
  cases r <;> cases r' <;> simp [runners] at h ⊢

/-- The service acquires the lease. -/
def serviceStarts : List (LeaseStep Bool) := [.inspect false 0 true true, .insert false]

/-- The batch runner finds no process of the service, whose lease is fresh. -/
def batchReclaims : List (LeaseStep Bool) :=
  serviceStarts ++ [.inspect true 0 false false, .takeover true]

/-- The batch runner takes over after the service has released the lease. -/
def batchFollows : List (LeaseStep Bool) :=
  serviceStarts ++ [.release false true, .inspect true 0 false false, .takeover true]

theorem leaseSafe_batchFollows : (run runners batchFollows).LeaseSafe runners := by
  refine (leaseSafe_iff runners_injective batchFollows).2 ?_ batchFollows [] (by simp)
  have hreleased : (run runners (serviceStarts ++ [.release false true,
      .inspect true 0 false false])).cell.committed.map LeaseRow.released = some true := by
    rfl
  refine eachAfter_append_singleton (l := serviceStarts ++ [.release false true,
    .inspect true 0 false false]).2 ⟨?_, ?_⟩
  · rintro done a todo hsteps
    have hmem : a ∈ serviceStarts ++ [.release false true, .inspect true 0 false false] := by
      simp [hsteps]
    simp only [serviceStarts, List.cons_append, List.nil_append, List.mem_cons,
      List.not_mem_nil, or_false] at hmem
    rcases hmem with rfl | rfl | rfl | rfl <;> exact id
  · rintro ⟨current, row, -, hcommitted, -, -, hheld, -⟩
    rw [hcommitted, Option.map_some, hheld] at hreleased
    simp at hreleased

/-- The lease of the service is fresh, and is taken over. -/
theorem not_leaseSafe_batchReclaims : ¬ (run runners batchReclaims).LeaseSafe runners := by
  intro hsafe
  have hlog : .acquired true 2 (some ((runners false).row 0 1)) 0 ∈
      (run runners batchReclaims).log := by
    decide
  have hrespected := hsafe.respected _ _ _ _ hlog ⟨false, rfl, rfl⟩
  simp [LeaseIdentity.row, runners] at hrespected

/-- The batch runner deletes the row at its end, and the service is the next to acquire. -/
def serviceFollows : List (LeaseStep Bool) :=
  [.inspect true 0 true true, .insert true, .release true false] ++ serviceStarts

/-- Both acquisitions obtain the first epoch. -/
theorem serviceFollows_sameEpoch : ¬ ∀ before r epoch row time between r' epoch' row' time' after,
    (run runners serviceFollows).log = before ++ .acquired r epoch row time ::
      (between ++ .acquired r' epoch' row' time' :: after) → r ≠ r' → epoch < epoch' := by
  intro h
  have hlog : (run runners serviceFollows).log =
      [] ++ .acquired true 1 none 0 :: ([.deleted] ++ [.acquired false 1 none 0]) := by
    rfl
  have hlt := h _ _ _ _ _ _ _ _ _ _ _ hlog (by simp)
  omega

theorem epochsIncrease_batchReclaims : EpochsIncrease (run runners batchReclaims).log :=
  epochsIncrease_run runners_injective batchReclaims

end Accounts

end CdcFlight
