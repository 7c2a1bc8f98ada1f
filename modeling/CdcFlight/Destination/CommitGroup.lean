import CdcFlight.Destination.KeyTexts
import CdcFlight.Numeric.Variable

/-!
# Commit groups on keyed tables

A commit group that names keys in the texts under which the destination holds them leaves the
source's rows or is refused, and is not refused where no key is ever worn twice. Where a numeric key
arrives in another text than the row at the destination, as `1.00` for `1.0`, the probe of the key
finds that row, and the group leaves a row too many or is refused.

## Main results

* `CdcFlight.Layout.commitTable_full`: with full before-images the group is refused whole or
  produces the source's rows, also under deferred constraints.
* `CdcFlight.Layout.commitTable_settled`: where no key is ever worn twice, the group is not refused.
-/

namespace CdcFlight

open Lib

namespace Layout

variable {C V : Type} [DecidableEq C] [DecidableEq V] [ColumnValue V] [ToString C]
  {layout : Layout C} {t : Table C V} {S' : Multiset (Row C V)}
  {history : List (List (SourceEvent C V))} {group : Group C V} {applied : String → Bool}
  {commitId : ℕ}

/-! ### Groups with full before-images -/

/-- A group with full before-images, folded by the texts, stands for the source's rows. -/
theorem Mirrors.foldsTo_full (h : layout.Mirrors t)
    (hnonkey : ∃ c ∈ layout.columns, c ∉ layout.keyColumns)
    (htrace : Trace layout.Transaction (contents t.rows) history S')
    (hrender : List.Forall₂ (List.Forall₂ fun event record =>
      layout.Renders event record.1 ∧ layout.FullBefore event record.1) history group) :
    FoldsTo t applied commitId group fun item => layout.Simulates (contents t.rows) item S' := by
  intro first hfirst item hrun
  obtain ⟨event, -, hrend, -⟩ :=
    forall₂_mem_right (List.rel_flatten hrender) (List.mem_of_mem_head? hfirst)
  exact (h.byText.fold_full hnonkey (h.simulates_create hrend.deleteMode_ne) h.distinct htrace
    hrender hrun).1

/-- **A group is refused whole, or writes the source's rows.** For whole source transactions whose
updates and deletes carry full before-images, on a table with a column outside the key. Several
rows may wear one key inside a transaction. At the destination and at the end of the group the keys
have different forms, as the constraints demand, and the named keys have one text. -/
theorem commitTable_full (layout : Layout C) (engine : LimitOne C V) (supportsPrimaryKey : Bool)
    (applied : String → Bool) (commitId : ℕ) (t : Table C V) (h : layout.Mirrors t)
    (hheld : layout.KeysApart t.canonicalKey (contents t.rows))
    (hleft : layout.KeysApart t.canonicalKey S')
    (hone : layout.OneText t.canonicalKey (contents t.rows) history.flatten)
    (hnonkey : ∃ c ∈ layout.columns, c ∉ layout.keyColumns)
    (htrace : Trace layout.Transaction (contents t.rows) history S')
    (hrender : List.Forall₂ (List.Forall₂ fun event record =>
      layout.Renders event record.1 ∧ layout.FullBefore event record.1) history group) :
    (∃ refusal, commitTable engine supportsPrimaryKey applied commitId t group =
      (t, some refusal)) ∨
    ∃ t', commitTable engine supportsPrimaryKey applied commitId t group = (t', none) ∧
      contents t'.rows = S' := by
  unfold commitTable
  cases hrun : applyTable engine supportsPrimaryKey applied commitId t group with
  | error refusal => exact Or.inl ⟨refusal, rfl⟩
  | ok t' =>
    have hfold : FoldsTo t applied commitId group (layout.StandsApart t) :=
      fun first hfirst item hitem =>
        ⟨S', h.foldsTo_full hnonkey htrace hrender first hfirst item hitem, hleft⟩
    have htext := hone.applyTable_byText
      (hrender.imp fun _ _ hr => hr.imp fun _ _ hr => hr.1) hheld h.absent hfold hrun
    have hrows : contents t'.byText.rows = S' :=
      h.byText.applyTable_full hnonkey htrace hrender htext
    exact Or.inr ⟨t', rfl, hrows⟩

end Layout

/-! ### A key in two texts -/

namespace Accounts

/-- The text under which a numeric key is compared. -/
def numericText (text : String) : String :=
  match identityTree .numeric (.text text.toList) with
  | .ok (.finite text) => String.ofList text
  | _ => text

/-- The keys of a table whose key is a number. -/
def numericKey (key : List (Option String)) : List (Option String) :=
  key.map (Option.map numericText)

/-- The accounts under numeric keys. -/
def numbered : Table Column String where
  name := "accounts"
  columns := [.id, .note, .body]
  keyColumns := [.id]
  canonicalKey := numericKey
  rows := [⟨row "1.0" "a" "x", { eventId := some "0" }⟩]

theorem mirrors_numbered : layout.Mirrors numbered where
  columns _ := by decide
  absent h := by cases h
  distinct := Multiset.nodup_singleton _
  fits r _ := fits r

theorem keysApart_numbered : layout.KeysApart numericKey (contents numbered.rows) :=
  Multiset.nodup_singleton _

/-- A new row takes the key of an old one inside a transaction; a truncate follows. -/
def reuse : List (List (SourceEvent Column String)) :=
  [[.insert (row "1.0" "b" "x"), .delete (row "1.0" "a" "x")],
    [.truncate, .insert (row "2.0" "c" "y")]]

theorem trace_reuse :
    Trace layout.Transaction (contents numbered.rows) reuse {row "2.0" "c" "y"} := by
  have hinsert : layout.Step {row "1.0" "a" "x"} (.insert (row "1.0" "b" "x"))
      (row "1.0" "b" "x" ::ₘ {row "1.0" "a" "x"}) := .insert (fits _)
  have hdelete : layout.Step (row "1.0" "b" "x" ::ₘ {row "1.0" "a" "x"})
      (.delete (row "1.0" "a" "x")) {row "1.0" "b" "x"} := by
    rw [show row "1.0" "b" "x" ::ₘ {row "1.0" "a" "x"} =
      row "1.0" "a" "x" ::ₘ {row "1.0" "b" "x"} from Multiset.cons_swap _ _ _]
    exact .delete
  exact .cons ⟨.cons hinsert (.cons hdelete (.nil _)), Multiset.nodup_singleton _⟩
    (.cons ⟨.cons .truncate (.cons (.insert (fits _)) (.nil _)), Multiset.nodup_singleton _⟩
      (.nil _))

/-- The group names the key in the text under which the destination holds it. -/
theorem oneText_reuse :
    layout.OneText numericKey (contents numbered.rows) reuse.flatten := by
  intro event hevent r hr s hs _
  obtain rfl := Multiset.mem_singleton.1 hs
  have hbefore : beforeTruncate reuse.flatten =
      [.insert (row "1.0" "b" "x"), .delete (row "1.0" "a" "x")] := rfl
  rw [hbefore] at hevent
  rcases List.mem_pair.1 hevent with rfl | rfl
  · exact absurd hr List.not_mem_nil
  · rw [List.mem_singleton.1 hr]

theorem renders_full {history : List (List (SourceEvent Column String))}
    (hfit : ∀ txn ∈ history, ∀ event ∈ txn, full.Fit event) :
    List.Forall₂ (List.Forall₂ fun event record =>
      layout.Renders event record.1 ∧ layout.FullBefore event record.1) history
      (records full history) :=
  forall₂_records full fun txn htxn event hevent =>
    ⟨full.renders_record (hfit txn htxn event hevent),
      full.fullBefore_record (by decide) (hfit txn htxn event hevent)⟩

theorem commitTable_reuse :
    (∃ refusal, commitTable firstRow true (fun _ => false) 7 numbered (records full reuse) =
      (numbered, some refusal)) ∨
    ∃ t', commitTable firstRow true (fun _ => false) 7 numbered (records full reuse) =
      (t', none) ∧ contents t'.rows = {row "2.0" "c" "y"} :=
  Layout.commitTable_full layout firstRow true (fun _ => false) 7 numbered mirrors_numbered
    keysApart_numbered (Multiset.nodup_singleton _) oneText_reuse ⟨.note, by decide, by decide⟩
    trace_reuse (renders_full (by decide))

example :
    (commitTable firstRow true (fun _ => false) 7 numbered (records full reuse)).2 = none := by
  decide +kernel

/-- The row is deleted; a like row comes and goes under another text of the key. -/
def respelled : List (List (SourceEvent Column String)) :=
  [[.delete (row "1.0" "a" "x"), .insert (row "1.00" "a" "x"), .delete (row "1.00" "a" "x")]]

/-- The source is left empty, and the destination with the row that came and went. -/
theorem commitTable_respelled :
    layout.KeysApart numericKey (contents numbered.rows) ∧
      Trace layout.Transaction (contents numbered.rows) respelled 0 ∧
      List.Forall₂ (List.Forall₂ fun event record =>
        layout.Renders event record.1 ∧ layout.FullBefore event record.1) respelled
        (records full respelled) ∧
      ¬ ((∃ refusal, commitTable firstRow true (fun _ => false) 7 numbered
          (records full respelled) = (numbered, some refusal)) ∨
        ∃ t', commitTable firstRow true (fun _ => false) 7 numbered (records full respelled) =
          (t', none) ∧ contents t'.rows = 0) := by
  have hdelete (id : String) : layout.Step {row id "a" "x"} (.delete (row id "a" "x")) 0 :=
    .delete (S := 0)
  have htxn : layout.Transaction {row "1.0" "a" "x"}
      [.delete (row "1.0" "a" "x"), .insert (row "1.00" "a" "x"), .delete (row "1.00" "a" "x")]
      0 :=
    ⟨.cons (hdelete "1.0") (.cons (.insert (fits _)) (.cons (hdelete "1.00") (.nil _))),
      Multiset.nodup_zero⟩
  refine ⟨keysApart_numbered, .cons htxn (.nil _), renders_full (by decide), ?_⟩
  have hnone : (commitTable firstRow true (fun _ => false) 7 numbered
      (records full respelled)).2.isNone = true := by
    decide +kernel
  have hlength : (commitTable firstRow true (fun _ => false) 7 numbered
      (records full respelled)).1.rows.length = 1 := by
    decide +kernel
  rintro (⟨refusal, hrefused⟩ | ⟨t', heq, hcontents⟩)
  · rw [hrefused] at hnone
    cases hnone
  · rw [heq] at hlength
    have hcard := congrArg Multiset.card hcontents
    rw [contents, Multiset.coe_card, List.length_map, hlength] at hcard
    cases hcard

end Accounts

/-! ### Groups under constraints that are not deferred -/

namespace Layout

variable {C V : Type} [DecidableEq C] [DecidableEq V] [ColumnValue V] [ToString C]
  {layout : Layout C} {t : Table C V} {S' : Multiset (Row C V)}
  {history : List (List (SourceEvent C V))} {group : Group C V} {applied : String → Bool}
  {commitId : ℕ}

/-- A group under constraints that are not deferred, folded by the texts, stands for the source's
rows. -/
theorem Mirrors.foldsTo_settled (h : layout.Mirrors t)
    (htrace : Trace (Trace layout.StrictStep) (contents t.rows) history S')
    (hrender : List.Forall₂ (List.Forall₂ fun event record => layout.Renders event record.1 ∧
      (record.1.kind ≠ .truncate → layout.Described record.1)) history group) :
    FoldsTo t applied commitId group fun item =>
      Started item ∧ layout.Simulates (contents t.rows) item S' := by
  intro first hfirst item hrun
  have hmem := List.mem_of_mem_head? hfirst
  obtain ⟨event, -, hrend, -⟩ := forall₂_mem_right (List.rel_flatten hrender) hmem
  obtain ⟨item', hrun', hsettled, hstarted⟩ := h.byText.fold_settled applied commitId
    ⟨h.simulates_create hrend.deleteMode_ne, h.distinct, rfl⟩ htrace hrender
    (List.ne_nil_of_mem hmem)
  obtain rfl : item' = item := by
    rw [hrun] at hrun'
    cases hrun'
    rfl
  exact ⟨hstarted, hsettled.simulates⟩

/-- A group under constraints that are not deferred is written, and leaves a table that can hold
the source table again. -/
theorem Mirrors.applyTable_settled (h : layout.Mirrors t) (engine : LimitOne C V)
    (supportsPrimaryKey : Bool) (applied : String → Bool) (commitId : ℕ)
    (hkeys : t.present = true → t.keyColumns = layout.keyColumns)
    (hheld : layout.KeysApart t.canonicalKey (contents t.rows))
    (hleft : layout.KeysApart t.canonicalKey S')
    (hone : layout.OneText t.canonicalKey (contents t.rows) history.flatten)
    (htrace : Trace (Trace layout.StrictStep) (contents t.rows) history S')
    (hrender : List.Forall₂ (List.Forall₂ fun event record => layout.Renders event record.1 ∧
      (record.1.kind ≠ .truncate → layout.Described record.1)) history group) :
    ∃ t', applyTable engine supportsPrimaryKey applied commitId t group = .ok t' ∧
      contents t'.rows = S' ∧ layout.Mirrors t' ∧ t'.canonicalKey = t.canonicalKey ∧
      (t'.present = true → t'.keyColumns = layout.keyColumns) := by
  obtain ⟨t₁, htext, hrows, hmirrors, hkeys'⟩ := h.byText.applyTable_settled engine
    supportsPrimaryKey applied commitId hkeys htrace hrender
  have hfold : FoldsTo t applied commitId group fun item =>
      Started item ∧ layout.StandsApart t item := by
    intro first hfirst item hitem
    obtain ⟨hstarted, hsim⟩ := h.foldsTo_settled htrace hrender first hfirst item hitem
    exact ⟨hstarted, S', hsim, hleft⟩
  obtain ⟨t', hrun, rfl, hcanonical⟩ := hone.applyTable_of_byText
    (hrender.imp fun _ _ hr => hr.imp fun _ _ hr => hr.1) hheld h.absent hkeys hfold htext
  exact ⟨t', hrun, hrows, ⟨hmirrors.columns, hmirrors.absent, hmirrors.distinct, hmirrors.fits⟩,
    hcanonical, hkeys'⟩

/-- **A group is not refused where no key is worn twice.** For whole source transactions under
constraints that are not deferred; before-images may be key-only, partial or hold unchanged-TOAST
placeholders, after-images of updates may hold them. The written rows are the source's, in every
column. At the destination and at the end of the group the keys have different forms, as the
constraints demand, and the named keys have one text. -/
theorem commitTable_settled (layout : Layout C) (engine : LimitOne C V) (supportsPrimaryKey : Bool)
    (applied : String → Bool) (commitId : ℕ) (t : Table C V) (h : layout.Mirrors t)
    (hkeys : t.present = true → t.keyColumns = layout.keyColumns)
    (hheld : layout.KeysApart t.canonicalKey (contents t.rows))
    (hleft : layout.KeysApart t.canonicalKey S')
    (hone : layout.OneText t.canonicalKey (contents t.rows) history.flatten)
    (htrace : Trace (Trace layout.StrictStep) (contents t.rows) history S')
    (hrender : List.Forall₂ (List.Forall₂ fun event record => layout.Renders event record.1 ∧
      (record.1.kind ≠ .truncate → layout.Described record.1)) history group) :
    ∃ t', commitTable engine supportsPrimaryKey applied commitId t group = (t', none) ∧
      contents t'.rows = S' := by
  obtain ⟨t', hrun, hrows, -⟩ := h.applyTable_settled engine supportsPrimaryKey applied commitId
    hkeys hheld hleft hone htrace hrender
  exact ⟨t', by rw [commitTable, hrun], hrows⟩

end Layout

namespace Accounts

/-- A row is changed, deleted and inserted again; then another row arrives. -/
def recycle : List (List (SourceEvent Column String)) :=
  [[.update (row "1.0" "a" "x") (row "1.0" "b" "x")],
    [.delete (row "1.0" "b" "x"), .insert (row "1.0" "c" "y")]]

theorem trace_recycle :
    Trace (Trace layout.StrictStep) (contents numbered.rows) recycle {row "1.0" "c" "y"} := by
  have hupdate : layout.StrictStep {row "1.0" "a" "x"}
      (.update (row "1.0" "a" "x") (row "1.0" "b" "x")) {row "1.0" "b" "x"} :=
    ⟨.update (S := 0) (fits _) (by decide), Multiset.nodup_singleton _⟩
  have hdelete : layout.StrictStep {row "1.0" "b" "x"} (.delete (row "1.0" "b" "x")) 0 :=
    ⟨.delete (S := 0), Multiset.nodup_zero⟩
  have hinsert : layout.StrictStep 0 (.insert (row "1.0" "c" "y")) {row "1.0" "c" "y"} :=
    ⟨.insert (fits _), Multiset.nodup_singleton _⟩
  exact .cons (.cons hupdate (.nil _)) (.cons (.cons hdelete (.cons hinsert (.nil _))) (.nil _))

theorem oneText_recycle :
    layout.OneText numericKey (contents numbered.rows) recycle.flatten := by
  intro event hevent r hr s hs _
  obtain rfl := Multiset.mem_singleton.1 hs
  have hkey : ∀ event ∈ recycle.flatten, ∀ r ∈ event.named, layout.key r = [some "1.0"] := by
    decide
  exact (hkey event ((List.takeWhile_sublist _).subset hevent) r hr).symm

theorem renders_sparse {history : List (List (SourceEvent Column String))}
    (hfit : ∀ txn ∈ history, ∀ event ∈ txn, sparse.Fit event) :
    List.Forall₂ (List.Forall₂ fun event record =>
      layout.Renders event record.1 ∧ (record.1.kind ≠ .truncate → layout.Described record.1))
      history (records sparse history) :=
  forall₂_records sparse fun txn htxn event hevent =>
    ⟨sparse.renders_record (hfit txn htxn event hevent),
      sparse.described_record (by decide) event⟩

theorem commitTable_recycle :
    ∃ t', commitTable firstRow true (fun _ => false) 7 numbered (records sparse recycle) =
      (t', none) ∧ contents t'.rows = {row "1.0" "c" "y"} :=
  Layout.commitTable_settled layout firstRow true (fun _ => false) 7 numbered mirrors_numbered
    (fun _ => rfl) keysApart_numbered (Multiset.nodup_singleton _) oneText_recycle trace_recycle
    (renders_sparse (by decide))

/-- The row is deleted and a new one inserted under another text of the key; the new one is then
changed. -/
def amendRespelled : List (List (SourceEvent Column String)) :=
  [[.delete (row "1.0" "a" "x")], [.insert (row "1.00" "b" "y")],
    [.update (row "1.00" "b" "y") (row "1.00" "c" "y")]]

/-- The history is legal, and the group is refused for want of a base row. -/
theorem commitTable_amendRespelled :
    layout.KeysApart numericKey (contents numbered.rows) ∧
      Trace (Trace layout.StrictStep) (contents numbered.rows) amendRespelled
        {row "1.00" "c" "y"} ∧
      List.Forall₂ (List.Forall₂ fun event record =>
        layout.Renders event record.1 ∧
          (record.1.kind ≠ .truncate → layout.Described record.1)) amendRespelled
        (records sparse amendRespelled) ∧
      ¬ ∃ t', commitTable firstRow true (fun _ => false) 7 numbered
        (records sparse amendRespelled) = (t', none) ∧
          contents t'.rows = {row "1.00" "c" "y"} := by
  have hdelete : layout.StrictStep {row "1.0" "a" "x"} (.delete (row "1.0" "a" "x")) 0 :=
    ⟨.delete (S := 0), Multiset.nodup_zero⟩
  have hinsert : layout.StrictStep 0 (.insert (row "1.00" "b" "y")) {row "1.00" "b" "y"} :=
    ⟨.insert (fits _), Multiset.nodup_singleton _⟩
  have hupdate : layout.StrictStep {row "1.00" "b" "y"}
      (.update (row "1.00" "b" "y") (row "1.00" "c" "y")) {row "1.00" "c" "y"} :=
    ⟨.update (S := 0) (fits _) (by decide), Multiset.nodup_singleton _⟩
  refine ⟨keysApart_numbered, ?_, renders_sparse (by decide), ?_⟩
  · exact .cons (.cons hdelete (.nil _)) (.cons (.cons hinsert (.nil _))
      (.cons (.cons hupdate (.nil _)) (.nil _)))
  have hclass : (commitTable firstRow true (fun _ => false) 7 numbered
      (records sparse amendRespelled)).2.map (·.errorClass) = some .toastBaseMissing := by
    decide +kernel
  rintro ⟨t', heq, -⟩
  rw [heq] at hclass
  cases hclass

end Accounts

end CdcFlight
