import Mathlib

/-!
# One row under snapshot isolation

A row that transactions read and write under snapshot isolation, where of two concurrent writers
the first one wins. An open transaction reads the contents at its start, or what it has written
itself. It may write when no other open transaction has, and when no write was committed since its
start. So a transaction that has written keeps every other one from writing until it ends.

## Main definitions

* `Lib.Cell`, `Lib.Cell.Snapshot`.
* `Lib.Cell.write`, `Lib.Cell.commit`, `Lib.Cell.rollback`: the steps of an open transaction.
* `Lib.Cell.writeNow`: a write that is a transaction of its own.

## Main results

* `Lib.Cell.write_eq_some`: what a write that succeeds has seen.
* `Lib.Cell.Snapshot.Agrees`: a snapshot of the current version holds the committed contents.
-/

namespace Lib

universe u v

/-- A row: the committed contents, the number of committed writes, and the open transaction that
has written, with what it has written. -/
structure Cell (τ : Type u) (ρ : Type v) where
  committed : ρ
  version : ℕ := 0
  writer : Option (τ × ρ) := none

namespace Cell

variable {τ : Type u} {ρ : Type v}

/-- What a transaction sees of others: the contents and the version at its start. -/
structure Snapshot (ρ : Type v) where
  contents : ρ
  version : ℕ

/-- The snapshot of a transaction that starts. -/
def snapshot (c : Cell τ ρ) : Snapshot ρ := ⟨c.committed, c.version⟩

/-- A snapshot of the current version holds the committed contents, and none is of the future. -/
structure Snapshot.Agrees (snap : Snapshot ρ) (c : Cell τ ρ) : Prop where
  le : snap.version ≤ c.version
  contents : snap.version = c.version → snap.contents = c.committed

/-- The transaction has written and is open. -/
def IsWriter (c : Cell τ ρ) (t : τ) : Prop := ∃ x, c.writer = some (t, x)

variable [DecidableEq τ]

/-- What an open transaction reads. -/
def read (c : Cell τ ρ) (t : τ) (snap : Snapshot ρ) : ρ :=
  match c.writer with
  | some (t', x) => if t' = t then x else snap.contents
  | none => snap.contents

/-- An open transaction writes; `none` is a conflict. -/
def write (c : Cell τ ρ) (t : τ) (snap : Snapshot ρ) (x : ρ) : Option (Cell τ ρ) :=
  match c.writer with
  | some (t', _) => if t' = t then some { c with writer := some (t, x) } else none
  | none => if snap.version = c.version then some { c with writer := some (t, x) } else none

/-- A write outside of any open transaction; `none` is a conflict. -/
def writeNow (c : Cell τ ρ) (x : ρ) : Option (Cell τ ρ) :=
  match c.writer with
  | some _ => none
  | none => some { c with committed := x, version := c.version + 1 }

/-- A transaction is committed. -/
def commit (c : Cell τ ρ) (t : τ) : Cell τ ρ :=
  match c.writer with
  | some (t', x) =>
    if t' = t then { committed := x, version := c.version + 1, writer := none } else c
  | none => c

/-- A transaction is rolled back. -/
def rollback (c : Cell τ ρ) (t : τ) : Cell τ ρ :=
  match c.writer with
  | some (t', _) => if t' = t then { c with writer := none } else c
  | none => c

variable {c d : Cell τ ρ} {t : τ} {snap : Snapshot ρ} {x : ρ}

omit [DecidableEq τ] in
theorem agrees_snapshot (c : Cell τ ρ) : c.snapshot.Agrees c := ⟨le_rfl, fun _ => rfl⟩

/-- A write leaves the committed contents; it continues one of the same transaction, or is the
first since the transaction started, in which case it has read the committed contents. -/
theorem write_eq_some (h : c.write t snap x = some d) :
    d = { c with writer := some (t, x) } ∧ (c.IsWriter t ∨ c.writer = none ∧
      snap.version = c.version) := by
  rw [write] at h
  cases hw : c.writer with
  | none =>
    simp only [hw] at h
    by_cases hv : snap.version = c.version
    · rw [if_pos hv] at h
      exact ⟨(Option.some.inj h).symm, Or.inr ⟨rfl, hv⟩⟩
    · rw [if_neg hv] at h
      exact absurd h (by simp)
  | some p =>
    obtain ⟨t', y⟩ := p
    simp only [hw] at h
    by_cases ht : t' = t
    · rw [if_pos ht] at h
      exact ⟨(Option.some.inj h).symm, Or.inl ⟨y, by rw [hw, ht]⟩⟩
    · rw [if_neg ht] at h
      exact absurd h (by simp)

omit [DecidableEq τ] in
/-- A write of its own needs that no open transaction has written. -/
theorem writeNow_eq_some (h : c.writeNow x = some d) :
    c.writer = none ∧ d = { c with committed := x, version := c.version + 1 } := by
  rw [writeNow] at h
  cases hw : c.writer with
  | none =>
    simp only [hw] at h
    exact ⟨rfl, (Option.some.inj h).symm⟩
  | some p =>
    simp only [hw] at h
    exact absurd h (by simp)

theorem read_of_isWriter (h : c.writer = some (t, x)) : c.read t snap = x := by
  rw [read, h]
  exact if_pos rfl

theorem read_of_writer_none (h : c.writer = none) : c.read t snap = snap.contents := by
  rw [read, h]

theorem commit_of_writer (h : c.writer = some (t, x)) :
    c.commit t = { committed := x, version := c.version + 1, writer := none } := by
  rw [commit, h]
  exact if_pos rfl

theorem commit_of_not_isWriter (h : ¬ c.IsWriter t) : c.commit t = c := by
  rw [commit]
  cases hw : c.writer with
  | none => rfl
  | some p =>
    obtain ⟨t', y⟩ := p
    have hne : t' ≠ t := fun ht => h ⟨y, by rw [hw, ht]⟩
    simp only [if_neg hne]

theorem rollback_of_writer (h : c.writer = some (t, x)) :
    c.rollback t = { c with writer := none } := by
  rw [rollback, h]
  exact if_pos rfl

theorem rollback_of_not_isWriter (h : ¬ c.IsWriter t) : c.rollback t = c := by
  rw [rollback]
  cases hw : c.writer with
  | none => rfl
  | some p =>
    obtain ⟨t', y⟩ := p
    have hne : t' ≠ t := fun ht => h ⟨y, by rw [hw, ht]⟩
    simp only [if_neg hne]

omit [DecidableEq τ] in
/-- Of two transactions that have written and are open, both are the same. -/
theorem IsWriter.unique {t' : τ} (h : c.IsWriter t) (h' : c.IsWriter t') : t = t' := by
  obtain ⟨x, hx⟩ := h
  obtain ⟨y, hy⟩ := h'
  rw [hx] at hy
  exact congrArg Prod.fst (Option.some.inj hy)

end Cell

end Lib
