import CdcFlight.Destination.CommitGroup

/-!
# Runs of commit groups

One commit group after the other on a keyed table. What a group leaves is again a table that can
hold the source table, so the groups of a source history take the destination along the history.

## Main definitions

* `CdcFlight.commitAll`: the groups of a run; a refused group ends it.
* `CdcFlight.Layout.RunInTexts`: every group of a run names keys in the texts it finds.

## Main results

* `CdcFlight.Layout.Mirrors.commitAll_settled`: a run over a source history under constraints that
  are not deferred is not refused, and ends with the source's rows.
-/

namespace CdcFlight

open Lib

variable {C V : Type} [DecidableEq C] [DecidableEq V] [ColumnValue V] [ToString C]

/-- What the commit of a group adds to its records: its id, and the keyless events already
applied. -/
structure GroupCommit (C V : Type) where
  commitId : ℕ
  applied : String → Bool
  group : Group C V

/-- Commit the groups of a run. -/
def commitAll (engine : LimitOne C V) (supportsPrimaryKey : Bool) (t : Table C V) :
    List (GroupCommit C V) → Table C V × Option Refusal
  | [] => (t, none)
  | commit :: rest =>
    match commitTable engine supportsPrimaryKey commit.applied commit.commitId t commit.group with
    | (t', some refusal) => (t', some refusal)
    | (t', none) => commitAll engine supportsPrimaryKey t' rest

namespace Layout

variable {layout : Layout C} {t : Table C V} {S' : Multiset (Row C V)}

/-- **Every group of a run names keys in the texts it finds.** In front of every group and at the
end the keys of the source's rows have different forms, and the group names the rows it finds there
by the texts of their keys. -/
def RunInTexts (layout : Layout C) (canonical : List (Option V) → List (Option V))
    (S : Multiset (Row C V)) (histories : List (List (List (SourceEvent C V)))) : Prop :=
  ∀ before after S₁, histories = before ++ after →
    Trace (Trace layout.StrictStep) S before.flatten S₁ →
    layout.KeysApart canonical S₁ ∧
      ∀ history ∈ after.head?, layout.OneText canonical S₁ history.flatten

omit [DecidableEq C] [DecidableEq V] [ColumnValue V] [ToString C] in
/-- The rest of a run after its first group. -/
theorem RunInTexts.tail {canonical : List (Option V) → List (Option V)}
    {S S₁ : Multiset (Row C V)} {history : List (List (SourceEvent C V))}
    {histories : List (List (List (SourceEvent C V)))}
    (h : layout.RunInTexts canonical S (history :: histories))
    (hfirst : Trace (Trace layout.StrictStep) S history S₁) :
    layout.RunInTexts canonical S₁ histories := by
  rintro before after S₂ rfl htrace
  exact h (history :: before) after S₂ rfl (hfirst.append htrace)

/-- **A run of groups follows the source.** -/
theorem Mirrors.commitAll_settled (h : layout.Mirrors t) (engine : LimitOne C V)
    (supportsPrimaryKey : Bool) (hkeys : t.present = true → t.keyColumns = layout.keyColumns)
    {histories : List (List (List (SourceEvent C V)))} {commits : List (GroupCommit C V)}
    (htexts : layout.RunInTexts t.canonicalKey (contents t.rows) histories)
    (htrace : Trace (Trace layout.StrictStep) (contents t.rows) histories.flatten S')
    (hrender : List.Forall₂ (fun history commit => List.Forall₂ (List.Forall₂ fun event record =>
      layout.Renders event record.1 ∧ (record.1.kind ≠ .truncate → layout.Described record.1))
        history (GroupCommit.group commit)) histories commits) :
    ∃ t', commitAll engine supportsPrimaryKey t commits = (t', none) ∧
      contents t'.rows = S' := by
  induction hrender generalizing t with
  | nil =>
    cases htrace
    exact ⟨t, rfl, rfl⟩
  | @cons history commit rest _ hgroup _ ih =>
    rw [List.flatten_cons] at htrace
    obtain ⟨S₁, hfirst, hrest⟩ := htrace.of_append
    obtain ⟨hheld, hone⟩ := htexts [] (history :: rest) _ rfl (.nil _)
    have htail := htexts.tail hfirst
    obtain ⟨hleft, -⟩ := htail [] rest _ rfl (.nil _)
    obtain ⟨t₁, hrun, hrows, hmirrors, hcanonical, hkeys₁⟩ := h.applyTable_settled engine
      supportsPrimaryKey commit.applied commit.commitId hkeys hheld hleft (hone history rfl) hfirst
      hgroup
    rw [← hrows, ← hcanonical] at htail
    obtain ⟨t', hall, hrows'⟩ := ih hmirrors hkeys₁ htail (hrows ▸ hrest)
    refine ⟨t', ?_, hrows'⟩
    rw [commitAll, commitTable, hrun]
    exact hall

end Layout

end CdcFlight
