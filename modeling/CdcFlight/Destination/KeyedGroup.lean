import CdcFlight.Destination.Materialize
import CdcFlight.Fold.Availability
import CdcFlight.Source.Records

/-!
# A commit group on a keyed table

The records of whole source transactions, folded from the state of the destination and written in
one destination transaction, take a destination that holds the source's rows before the
transactions to one that holds the source's rows after them. This is so for a table that compares
keys as they are written.

## Main definitions

* `CdcFlight.applyTable`: fold the records of a group into one table and write it.
* `CdcFlight.Layout.Mirrors`: a destination table that can hold the source table.
* `CdcFlight.Layout.MirrorsByText`: so, and it compares keys as they are written.
* `CdcFlight.Layout.KeysApart`: no two rows wear keys of one form.

## Main results

* `CdcFlight.Layout.MirrorsByText.applyTable_full`: with full before-images a group that is written
  produces the source's rows, also under deferred constraints.
* `CdcFlight.Layout.MirrorsByText.applyTable_settled`: where no key is ever worn twice, the group is
  written.
-/

namespace CdcFlight

open Lib

variable {C V : Type} [DecidableEq C] [DecidableEq V]

/-- The records of whole source transactions, each with its event id. -/
abbrev Group (C V : Type) := List (List (PendingRecord C V × String))

/-- Fold the records that a group holds for one table, then write the table. A raise at any point
rolls the destination transaction back. -/
def applyTable [ColumnValue V] [ToString C] (engine : LimitOne C V) (supportsPrimaryKey : Bool)
    (applied : String → Bool) (commitId : ℕ) (t : Table C V) (group : Group C V) :
    Except Refusal (Table C V) :=
  match group.flatten with
  | [] => pure t
  | first :: _ =>
    match (forM group (foldTransaction (t.probe false applied) commitId)).run
        (TableWork.create t.name first.1 false false none) with
    | .error refusal _ => throw refusal
    | .ok _ item => do
      let written ← write engine supportsPrimaryKey false t item
      return written.table

/-- The destination transaction of a group: committed, or rolled back with the refusal. -/
def commitTable [ColumnValue V] [ToString C] (engine : LimitOne C V) (supportsPrimaryKey : Bool)
    (applied : String → Bool) (commitId : ℕ) (t : Table C V) (group : Group C V) :
    Table C V × Option Refusal :=
  match applyTable engine supportsPrimaryKey applied commitId t group with
  | .ok t' => (t', none)
  | .error refusal => (t, some refusal)

namespace Layout

variable (layout : Layout C)

/-- A destination table that can hold the source table: it is absent, or it has the source's
columns; its rows are rows of the source's columns, no two under one key. -/
structure Mirrors (t : Table C V) : Prop where
  columns : t.present = true → ∀ c ∈ layout.columns, c ∈ t.columns
  absent : t.present = false → t.rows = []
  distinct : layout.KeysDistinct (contents t.rows)
  fits : ∀ r ∈ contents t.rows, layout.Fits r

/-- A destination table that can hold the source table and compares keys as they are written. -/
structure MirrorsByText (t : Table C V) : Prop extends layout.Mirrors t where
  texts : t.canonicalKey = id

/-- No two rows wear keys of one form. This is the source's key constraint as the destination sees
it, which takes two texts of one number for one key; the source's own constraint on the key values
promises it wherever equal values have equal forms. -/
def KeysApart (canonical : List (Option V) → List (Option V)) (S : Multiset (Row C V)) : Prop :=
  (S.map fun r => canonical (layout.key r)).Nodup

variable {layout} {t : Table C V} {S : Multiset (Row C V)} {item : TableWork C V}

omit [DecidableEq C] [DecidableEq V] in
/-- Keys of different forms are different. -/
theorem KeysApart.distinct {canonical : List (Option V) → List (Option V)}
    (h : layout.KeysApart canonical S) : layout.KeysDistinct S := by
  rw [KeysApart, ← Function.comp_def, ← Multiset.map_map] at h
  exact Multiset.Nodup.of_map _ h

omit [DecidableEq C] [DecidableEq V] in
theorem Mirrors.byText (h : layout.Mirrors t) : layout.MirrorsByText t.byText where
  columns := h.columns
  absent := h.absent
  distinct := h.distinct
  fits := h.fits
  texts := rfl

omit [DecidableEq C] [DecidableEq V] in
theorem mem_contents {rows : List (DestRow C V)} {r : Row C V} :
    r ∈ contents rows ↔ ∃ d ∈ rows, d.values = r := by
  simp [contents]

/-! ### The probe -/

/-- The planner's probe answers for the rows the table held before the group. -/
theorem MirrorsByText.answers (h : layout.MirrorsByText t) (applied : String → Bool) :
    layout.Answers (t.probe false applied) (contents t.rows) := by
  have hprobe (item : TableWork C V) (hs : item.snapshot = false)
      (hk : item.keyColumns = layout.keyColumns) : t.probeable false item = t.present := by
    simp [Table.probeable, hs, hk, layout.keyColumns_ne_nil]
  have hkey (d : DestRow C V) (r : Row C V) :
      keyOf layout.keyColumns d = rawKey (layout.token r) ↔
        layout.token d.values = layout.token r := by
    rw [rawKey_token, layout.token_eq_iff]
    rfl
  constructor
  · intro item r hs hk
    simp only [Table.probe, Table.keyAt_byText h.texts, h.texts, id, hprobe item hs hk, hk,
      Bool.and_eq_true, List.any_eq_true, decide_eq_true_eq, hkey]
    constructor
    · rintro ⟨-, d, hd, htoken⟩ hzero
      have hmem : d.values ∈ layout.rowsAt (contents t.rows) (layout.token r) :=
        mem_rowsAt.2 ⟨mem_contents.2 ⟨d, hd, rfl⟩, htoken⟩
      rw [hzero] at hmem
      exact Multiset.notMem_zero _ hmem
    · intro hne
      obtain ⟨s, hs⟩ := Multiset.exists_mem_of_ne_zero hne
      obtain ⟨hs, htoken⟩ := mem_rowsAt.1 hs
      obtain ⟨d, hd, rfl⟩ := mem_contents.1 hs
      refine ⟨?_, d, hd, htoken⟩
      by_contra habsent
      rw [h.absent (by simpa using habsent)] at hd
      cases hd
  · intro item r image hs hk hmatch
    simp only [Table.probe, Table.keyAt_byText h.texts, h.texts, id, hprobe item hs hk, hk]
      at hmatch
    split_ifs at hmatch with hcond
    simp only [Bool.and_eq_true] at hcond
    simp only [Option.some.injEq, List.any_eq_true, Bool.and_eq_true, decide_eq_true_eq, hkey,
      List.all_eq_true, List.mem_filter] at hmatch
    obtain ⟨d, hd, htoken, hall⟩ := hmatch
    refine ⟨d.values, mem_rowsAt.2 ⟨mem_contents.2 ⟨d, hd, rfl⟩, htoken⟩, fun c x hx hc => ?_⟩
    exact hall (c, x) ⟨Dict.get?_eq_some_iff.1 hx, h.columns hcond.1 c hc⟩

/-! ### The fold of a group -/

section Group

variable [ColumnValue V] [ToString C] {history : List (List (SourceEvent C V))}
  {group : Group C V} {S' : Multiset (Row C V)} {applied : String → Bool} {commitId : ℕ}

omit [ToString C] [DecidableEq V] in
/-- A rendered record is in hard-delete mode. -/
theorem Renders.deleteMode_ne {event : SourceEvent C V} {e : PendingRecord C V}
    (h : layout.Renders event e) : e.deleteMode ≠ some .soft := by
  cases h with
  | insert he _ => exact he.deleteMode
  | update he _ _ => exact he.deleteMode
  | delete he _ _ => exact he.deleteMode
  | truncate _ hmode => exact hmode

omit [ColumnValue V] [ToString C] in
/-- The item of a table seen for the first time stands for the rows of the destination. -/
theorem Mirrors.simulates_create (h : layout.Mirrors t) {e : PendingRecord C V}
    (he : e.deleteMode ≠ some .soft) :
    layout.Simulates (contents t.rows) (TableWork.create t.name e false false none)
      (contents t.rows) where
  represents := by
    refine ⟨fun k _ => rfl, ?_, ?_, ?_, ?_, ?_⟩
    · intro k es hget
      simp [TableWork.create] at hget
    · intro k es hget
      simp [TableWork.create] at hget
    · intro k es hget
      simp [TableWork.create] at hget
    · intro k hk
      simp [TableWork.create] at hk
    · intro k b hget
      simp [TableWork.create] at hget
  configured := by
    refine ⟨rfl, rfl, rfl, ?_, rfl, fun hid => ?_, fun c d hget => ?_, fun c d hget => ?_, rfl⟩
    · simp only [TableWork.config, TableWork.create, Option.none_or]
      cases hmode : e.deleteMode with
      | none => rfl
      | some mode =>
        cases mode with
        | hard => rfl
        | soft => exact absurd hmode he
    · cases hid
    · simp [TableWork.config, TableWork.create] at hget
    · simp [TableWork.config, TableWork.create] at hget
  fits := h.fits
  unidentified _ := rfl
  declared hid := nomatch hid
  whole hid := nomatch hid

/-- The fold of whole source transactions with full before-images. -/
theorem MirrorsByText.fold_full (h : layout.MirrorsByText t)
    (hnonkey : ∃ c ∈ layout.columns, c ∉ layout.keyColumns) {item' : TableWork C V}
    (hsim : layout.Simulates (contents t.rows) item S) (hS : layout.KeysDistinct S)
    (htrace : Trace layout.Transaction S history S')
    (hrender : List.Forall₂ (List.Forall₂ fun event record =>
      layout.Renders event record.1 ∧ layout.FullBefore event record.1) history group)
    (hrun : (forM group (foldTransaction (t.probe false applied) commitId)).run item =
      .ok () item') :
    layout.Simulates (contents t.rows) item' S' ∧ layout.KeysDistinct S' := by
  refine ⟨Trace.simulate (layout.Simulates (contents t.rows)) ?_ htrace hrender hsim hrun,
    htrace.invariant (P := layout.KeysDistinct) (fun _ _ _ _ htxn => htxn.2) hS⟩
  intro item S txn S' records item' hsim htxn hrend hrun
  exact foldTransaction_full (h.answers applied) h.distinct h.fits hnonkey hsim htxn hrend hrun

/-- The fold of whole source transactions under constraints that are not deferred. -/
theorem MirrorsByText.fold_settled (h : layout.MirrorsByText t) (applied : String → Bool)
    (commitId : ℕ) (hsettled : layout.Settled (contents t.rows) item S)
    (htrace : Trace (Trace layout.StrictStep) S history S')
    (hrender : List.Forall₂ (List.Forall₂ fun event record => layout.Renders event record.1 ∧
      (record.1.kind ≠ .truncate → layout.Described record.1)) history group)
    (hgroup : group.flatten ≠ []) :
    ∃ item', (forM group (foldTransaction (t.probe false applied) commitId)).run item =
        .ok () item' ∧
      layout.Settled (contents t.rows) item' S' ∧ Started item' := by
  obtain ⟨item', hrun, hsettled', hstarted⟩ : ∃ item',
      (forM group (foldTransaction (t.probe false applied) commitId)).run item = .ok () item' ∧
        layout.Settled (contents t.rows) item' S' ∧
          ((∃ records ∈ group, records ≠ []) ∨ Started item → Started item') := by
    refine Trace.refine (layout.Settled (contents t.rows)) (· ≠ []) Started ?_ htrace hrender
      hsettled
    intro item S txn S' records hsim htxn hrend
    exact foldTransaction_settled commitId (h.answers applied) h.distinct hsim htxn hrend
  refine ⟨item', hrun, hsettled', hstarted (Or.inl ?_)⟩
  by_contra hnone
  exact hgroup (List.flatten_eq_nil_iff.2 fun l hl => by_contra fun hne => hnone ⟨l, hl, hne⟩)

end Group

/-! ### A write that is not refused -/

section Total

variable {fresh : Bool} {B D : Multiset (Row C V)} {os : List (Token V × Outcome C V)}

/-- The concrete rows of an entry list, where `START` stands only at its head. -/
theorem length_filter_start {truncated : Bool} {k : Token V} {es : List (Entry C V)}
    (hwf : layout.WellFormed D truncated k es) :
    (es.filter (· ≠ .start)).length = concrete es := by
  have hstart : Entry.start ∉ es.filter (· ≠ .start) := by simp
  rcases filter_start hwf with hes | hes
  · rw [← hes]
    rw [← hes] at hstart
    cases es with
    | nil => rfl
    | cons e es =>
      cases e with
      | start => exact absurd List.mem_cons_self hstart
      | patch p => rfl
      | move s t p => rfl
  · conv_rhs => rw [hes]
    rfl

theorem planKey_total (item : TableWork C V) (k : Token V) {es : List (Entry C V)}
    (h : (es.filter (· ≠ .start)).length ≤ 1) : ∃ p, planKey item k es = .ok p := by
  unfold planKey
  split
  · exact ⟨_, rfl⟩
  · split
    · exact ⟨_, rfl⟩
    · exact ⟨_, rfl⟩
    · rename_i hnil hone
      rcases Nat.le_one_iff_eq_zero_or_eq_one.1 h with hlen | hlen
      · exact absurd (List.length_eq_zero_iff.1 hlen) hnil
      · obtain ⟨e, he⟩ := List.length_eq_one_iff.1 hlen
        exact absurd he (hone e)

theorem planKeys_total (item : TableWork C V) (items : List (Token V × List (Entry C V)))
    (h : ∀ x ∈ items, (x.2.filter (· ≠ .start)).length ≤ 1) :
    ∃ p, planKeys item items = .ok p := by
  induction items with
  | nil => exact ⟨{}, rfl⟩
  | cons x items ih =>
    obtain ⟨k, es⟩ := x
    obtain ⟨tail, htail⟩ := ih fun x hx => h x (List.mem_cons_of_mem _ hx)
    obtain ⟨head, hhead⟩ := planKey_total item k (h _ List.mem_cons_self)
    unfold planKeys
    rw [hhead, htail]
    exact ⟨_, rfl⟩

/-- The plan of a fold is not refused where no key is worn twice. -/
theorem plan_total (h : layout.Represents D item S) (hS : layout.KeysDistinct S) :
    ∃ p, plan item = .ok p := by
  obtain ⟨p, hp⟩ := planKeys_total item item.live.items fun x hx => by
    have hget : item.live.get? x.1 = some x.2 := Dict.get?_eq_some_iff.2 hx
    rw [length_filter_start (h.wellFormed _ _ hget), ← entriesAt_of_get? hget]
    exact concrete_le_one hS h x.1
  unfold plan
  rw [hp]
  exact ⟨_, rfl⟩

/-- Every sparse update of the plan finds its row. -/
theorem Outcomes.countP_updates (h : layout.Outcomes B S os) {held : List (DestRow C V)}
    (hB : contents held = B) (hD : layout.KeysDistinct B) :
    ((Table.rowsWithout layout.keyColumns ((plansOf os).deleteKeys.map rawKey) held).countP
      fun r => keyOf layout.keyColumns r ∈
        ((plansOf os).updates layout.keyColumns).map Prod.fst) =
      ((plansOf os).updates layout.keyColumns).length := by
  have hkeys : (held.map (keyOf layout.keyColumns)).Nodup := by
    have hmap : (contents held).map layout.key = ↑(held.map (keyOf layout.keyColumns)) := by
      simp only [contents, Multiset.map_coe, List.map_map]
      rfl
    rw [KeysDistinct, ← hB, hmap] at hD
    exact hD
  rw [← List.length_map (f := Prod.fst)]
  refine countP_mem_eq_length (keyOf layout.keyColumns) (fun r => decide_eq_true_iff) ?_
    (h.nodup_updates _) fun key hkey => ?_
  · exact hkeys.sublist (List.filter_sublist.map _)
  · obtain ⟨⟨_, a⟩, ha, rfl⟩ := List.mem_map.1 hkey
    rw [updates_plansOf] at ha
    obtain ⟨⟨k, p⟩, hp, heq⟩ := List.mem_map.1 ha
    obtain ⟨hraw, -⟩ := Prod.mk.inj heq
    dsimp only at hraw ⊢
    have hamend := mem_partialUpdates_plansOf.1 hp
    obtain ⟨r, hr⟩ := Multiset.exists_mem_of_ne_zero (h.amend k p hamend)
    obtain ⟨hmem, rfl⟩ := mem_rowsAt.1 hr
    rw [← hB] at hmem
    obtain ⟨d, hd, rfl⟩ := mem_contents.1 hmem
    refine List.mem_map.2 ⟨d, List.mem_filter.2 ⟨hd, ?_⟩, ?_⟩
    · simp only [decide_eq_true_eq, h.mem_deleteKeys]
      intro hdel
      rcases mem_deleteKeys_plansOf.1 hdel with hd | ⟨q, hq⟩
      · cases h.unique hamend hd
      · cases h.unique hamend hq
    · rw [← hraw, rawKey_token]
      rfl

/-- The sparse updates of the plan are not refused. -/
theorem Outcomes.updateKeyed_total (ht : t.canonicalKey = id) (h : layout.Outcomes B S os)
    {held : List (DestRow C V)} (hB : contents held = B) (hD : layout.KeysDistinct B)
    (hkeys : item.keyColumns = layout.keyColumns ∨ os = [])
    (hfresh : fresh = true → held = [])
    (hrows : t.rows = Table.rowsWithout item.keyColumns ((plansOf os).deleteKeys.map rawKey)
      held) :
    ∃ t', updateKeyed t item fresh (plansOf os) = .ok t' := by
  unfold updateKeyed
  dsimp only
  by_cases hnil : (plansOf os).updates item.keyColumns = []
  · rw [if_pos hnil]
    exact ⟨t, rfl⟩
  · rw [if_neg hnil]
    have hkeys : item.keyColumns = layout.keyColumns := by
      refine hkeys.resolve_right ?_
      rintro rfl
      exact hnil rfl
    rw [hkeys] at hrows hnil ⊢
    have hcount := h.countP_updates hB hD
    rw [← hrows] at hcount
    have hpresent : fresh = false := by
      by_contra hf
      rw [hrows, hfresh (by simpa using hf)] at hcount
      exact hnil (List.length_eq_zero_iff.1 hcount.symm)
    rw [hpresent, Table.updateRows_byText ht _ _ h.keepsKey (h.nodup_updates _)]
    simp only [Bool.false_eq_true, if_false, false_or]
    rw [if_neg (by rw [hcount]; exact not_not.2 rfl)]
    exact ⟨_, rfl⟩

omit [DecidableEq C] [DecidableEq V] in
/-- A table whose rows have keys of different forms has no repeated identity. -/
theorem identityUnique (layout : Layout C) (hkeys : t.keyColumns = layout.keyColumns)
    (h : layout.KeysApart t.canonicalKey (contents t.rows)) : t.IdentityUnique := by
  have hmap : t.rows.map t.identityOf =
      (t.rows.map fun r => t.canonicalKey (layout.key r.values)).map Sum.inl := by
    rw [List.map_map]
    refine List.map_congr_left fun r _ => ?_
    simp only [Table.identityOf, hkeys, layout.keyColumns_ne_nil, if_false]
    rfl
  have hnodup : (t.rows.map fun r => t.canonicalKey (layout.key r.values)).Nodup := by
    have hcoe : (contents t.rows).map (fun r => t.canonicalKey (layout.key r)) =
        ↑(t.rows.map fun r => t.canonicalKey (layout.key r.values)) := by
      simp only [contents, Multiset.map_coe, List.map_map]
      rfl
    rw [KeysApart, hcoe] at h
    exact h
  rw [Table.IdentityUnique, hmap]
  exact hnodup.map Sum.inl_injective

/-- A keyed write is not refused where no key is worn twice. -/
theorem writeKeyed_total (ht : t.canonicalKey = id) (h : layout.Simulates D item S)
    (hS : layout.KeysDistinct S) (hkeysD : layout.KeysDistinct D) (hD : contents t.rows = D)
    (hfresh : fresh = true → t.rows = []) (hkeys : t.keyColumns = layout.keyColumns) :
    ∃ w, writeKeyed t item fresh = .ok w := by
  obtain ⟨p, hp⟩ := plan_total h.represents hS
  obtain ⟨os, hos, rfl, hnil, -⟩ := plan_ok h.represents hS h.configured.softDeletes hp
  have hcols := h.keyColumns_or.imp_right hnil
  have hheld : contents (if item.truncated then [] else t.rows) =
      if item.truncated then 0 else D := by
    split_ifs
    · rfl
    · exact hD
  have hbase : layout.KeysDistinct (if item.truncated then 0 else D) := by
    split_ifs
    · exact Multiset.nodup_zero
    · exact hkeysD
  unfold writeKeyed
  rw [hp]
  have hsoft : item.softDeletes = ∅ := h.configured.softDeletes
  simp only [bind, Except.bind, markKeyedSoftDeletes_of_empty hsoft, ite_self,
    clearKeyed_rows ht _ h.configured.snapshot hfresh]
  obtain ⟨updated, hupdated⟩ := Outcomes.updateKeyed_total
    (t := { t with
      rows := Table.rowsWithout item.keyColumns ((plansOf os).deleteKeys.map rawKey)
        (if item.truncated then [] else t.rows) }) ht hos hheld hbase hcols
    (fun hf => by simp [hfresh hf]) rfl
  have hrows := updated_rows (by exact ht) hos hcols _ rfl hupdated
  have hunique : Table.IdentityUnique { updated with
      rows := updated.rows ++ (plansOf os).rows.map NewRow.toRow } := by
    refine identityUnique layout ?_ ?_
    · rw [hrows]
      exact hkeys
    · rw [hrows]
      change layout.KeysApart t.canonicalKey _
      rw [ht, hos.contents_eq hheld]
      exact hS
  rw [hupdated]
  simp only [Table.insertRows, hunique, not_true_eq_false, and_false, if_false]
  simp only [pure, Except.pure, Table.assertIdentityIsUnique, hunique, or_true, if_true]
  exact ⟨_, rfl⟩

/-- A fold that knows the identity knows the type of a column. -/
theorem Simulates.nativeColumns_ne_nil (h : layout.Simulates D item S)
    (hid : item.identified = true) : item.nativeColumns.keys ≠ [] := by
  obtain ⟨c, hc⟩ := List.exists_mem_of_ne_nil _ layout.keyColumns_ne_nil
  obtain ⟨d, hd⟩ := Option.isSome_iff_exists.1 (h.declared hid c hc)
  exact List.ne_nil_of_mem (Dict.mem_keys_iff.2 ⟨d, hd⟩)

/-- The prepared table has the source's key columns. -/
theorem keyColumns_prepare (supportsPrimaryKey : Bool)
    (hkeys : t.present = true → t.keyColumns = layout.keyColumns) (h : layout.Simulates D item S)
    (hstarted : Started item)
    (hempty : ¬ (item.truncated ∧ item.live.items = [] ∧ !t.present)) :
    (prepare supportsPrimaryKey t item).keyColumns = layout.keyColumns := by
  unfold prepare ensureTyped
  by_cases hpresent : t.present = true
  · split_ifs
    · exact hkeys hpresent
    · exact hkeys hpresent
  · have hid : item.identified = true := by
      by_contra hid
      have hid' : item.identified = false := by simpa using hid
      exact hempty ⟨hstarted.resolve_left hid, h.unidentified hid', by simpa using hpresent⟩
    rw [if_neg (h.nativeColumns_ne_nil hid), if_neg hpresent]
    exact h.configured.keyColumns hid

/-- A write is not refused where no key is worn twice. -/
theorem write_total (engine : LimitOne C V) (supportsPrimaryKey : Bool)
    (hm : layout.MirrorsByText t)
    (hkeys : t.present = true → t.keyColumns = layout.keyColumns)
    (h : layout.Simulates (contents t.rows) item S) (hstarted : Started item)
    (hS : layout.KeysDistinct S) :
    ∃ w, write engine supportsPrimaryKey false t item = .ok w := by
  by_cases hempty : item.truncated ∧ item.live.items = [] ∧ !t.present
  · unfold write
    rw [if_pos hempty]
    exact ⟨_, rfl⟩
  have hnative : ¬ (item.nativeColumns.keys = [] ∧ !(item.truncated && t.present)) := by
    rintro ⟨hnil, hcond⟩
    cases hid : item.identified with
    | true => exact h.nativeColumns_ne_nil hid hnil
    | false =>
      have htr : item.truncated = true := hstarted.resolve_left (by simp [hid])
      refine hempty ⟨htr, h.unidentified hid, ?_⟩
      simpa [htr] using hcond
  rw [write_eq_writeKeyed h.configured hempty hnative]
  have hrows := rows_prepare supportsPrimaryKey item hm.absent
  refine writeKeyed_total ((canonicalKey_prepare ..).trans hm.texts) h hS hm.distinct
    (by rw [hrows]) (fun hfresh => ?_)
    (keyColumns_prepare supportsPrimaryKey hkeys h hstarted hempty)
  rw [hrows, hm.absent (by simpa using hfresh)]

end Total

/-! ### What a write leaves -/

/-- The written table can hold the source table again. -/
theorem MirrorsByText.written {engine : LimitOne C V} {supportsPrimaryKey : Bool} {w : Written C V}
    (hm : layout.MirrorsByText t) (hkeys : t.present = true → t.keyColumns = layout.keyColumns)
    (h : layout.Simulates (contents t.rows) item S) (hS : layout.KeysDistinct S)
    (hstarted : Started item) (hw : write engine supportsPrimaryKey false t item = .ok w) :
    layout.MirrorsByText w.table ∧
      (w.table.present = true → w.table.keyColumns = layout.keyColumns) := by
  obtain ⟨hcontents, htable⟩ := write_contents hm.texts h hS hm.absent hw
  rcases htable with htable | ⟨hsome, hpresent', htable⟩
  · rw [htable]
    exact ⟨hm, hkeys⟩
  -- a table that was absent has been created under the identity and with every column
  have hid (habsent : t.present = false) : item.identified = true := by
    by_contra hid
    have hid' : item.identified = false := by simpa using hid
    exact hsome ⟨hstarted.resolve_left hid, h.unidentified hid', by simp [habsent]⟩
  have hzero (habsent : t.present = false) : contents t.rows = 0 := by
    rw [hm.absent habsent]
    rfl
  have hnative (habsent : t.present = false) : item.nativeColumns.keys ≠ [] :=
    h.nativeColumns_ne_nil (hid habsent)
  have hprepared : (∀ c ∈ layout.columns, c ∈ (prepare supportsPrimaryKey t item).columns) ∧
      (prepare supportsPrimaryKey t item).keyColumns = layout.keyColumns := by
    by_cases hpresent : t.present = true
    · unfold prepare ensureTyped
      split_ifs
      · exact ⟨hm.columns hpresent, hkeys hpresent⟩
      · exact ⟨fun c hc => List.mem_append_left _ (hm.columns hpresent c hc), hkeys hpresent⟩
    · have habsent : t.present = false := by simpa using hpresent
      unfold prepare ensureTyped
      rw [if_neg (hnative habsent), if_neg hpresent]
      refine ⟨fun c hc => ?_, h.configured.keyColumns (hid habsent)⟩
      obtain ⟨d, hd⟩ := Option.isSome_iff_exists.1
        (h.whole (hid habsent) (hzero habsent) c hc)
      exact Dict.mem_keys_iff.2 ⟨d, hd⟩
  rw [htable]
  refine ⟨⟨⟨fun _ => hprepared.1, fun habsent => ?_, ?_, ?_⟩,
    (canonicalKey_prepare ..).trans hm.texts⟩, fun _ => hprepared.2⟩
  · rw [hpresent'] at habsent
    cases habsent
  · rw [hcontents]
    exact hS
  · rw [hcontents]
    exact h.fits

/-! ### Whole groups -/

section Commit

variable [ColumnValue V] [ToString C] {history : List (List (SourceEvent C V))}
  {group : Group C V} {S' : Multiset (Row C V)}

/-- A group that is written, on a table that compares keys as they are written, leaves the source's
rows. -/
theorem MirrorsByText.applyTable_full (h : layout.MirrorsByText t) {engine : LimitOne C V}
    {supportsPrimaryKey : Bool} {applied : String → Bool} {commitId : ℕ}
    (hnonkey : ∃ c ∈ layout.columns, c ∉ layout.keyColumns)
    (htrace : Trace layout.Transaction (contents t.rows) history S')
    (hrender : List.Forall₂ (List.Forall₂ fun event record =>
      layout.Renders event record.1 ∧ layout.FullBefore event record.1) history group)
    {t' : Table C V}
    (hrun : applyTable engine supportsPrimaryKey applied commitId t group = .ok t') :
    contents t'.rows = S' := by
  have hflat := List.rel_flatten hrender
  unfold applyTable at hrun
  cases hgroup : group.flatten with
  | nil =>
    simp only [hgroup] at hrun hflat
    obtain rfl := Except.ok.inj hrun
    have hsteps := (htrace.mono fun _ _ _ h => h.1).flatten
    rw [List.forall₂_nil_right_iff.1 hflat] at hsteps
    cases hsteps
    rfl
  | cons first rest =>
    simp only [hgroup] at hrun hflat
    obtain ⟨event, _, ⟨hfirst, -⟩, -⟩ := List.forall₂_cons_right_iff.1 hflat
    have hinit := h.simulates_create hfirst.deleteMode_ne
    split at hrun
    · cases hrun
    · rename_i hfold
      obtain ⟨w, hw, hrun⟩ := except_bind_eq_ok.1 hrun
      obtain rfl := Except.ok.inj hrun
      obtain ⟨hsim, hS'⟩ := h.fold_full hnonkey hinit h.distinct htrace hrender hfold
      exact (write_contents h.texts hsim hS' h.absent hw).1

end Commit

end Layout

namespace Accounts

/-- The destination table of the accounts, with one row. -/
def table : Table Column String where
  name := "accounts"
  columns := [.id, .note, .body]
  keyColumns := [.id]
  rows := [⟨row "1" "a" "x", { eventId := some "0" }⟩]

/-- The engine takes the first row. -/
def firstRow : LimitOne Column String where
  pick := List.head?
  pick_mem := List.mem_of_mem_head?
  pick_isSome h := List.isSome_head?.2 h

theorem mirrors_table : layout.Mirrors table where
  columns _ := by decide
  absent h := nomatch h
  distinct := Multiset.nodup_singleton _
  fits r _ := fits r

/-- The records of a history. -/
def records (sends : layout.Sends) (history : List (List (SourceEvent Column String))) :
    Group Column String :=
  history.map fun txn => txn.map fun event => (sends.record event, "1")

theorem forall₂_records (sends : layout.Sends) {history : List (List (SourceEvent Column String))}
    {R : SourceEvent Column String → PendingRecord Column String × String → Prop}
    (h : ∀ txn ∈ history, ∀ event ∈ txn, R event (sends.record event, "1")) :
    List.Forall₂ (List.Forall₂ R) history (records sends history) := by
  unfold records
  rw [List.forall₂_map_right_iff, List.forall₂_same]
  intro txn htxn
  rw [List.forall₂_map_right_iff, List.forall₂_same]
  exact h txn htxn

end Accounts

namespace Layout

section Settled

variable [ColumnValue V] [ToString C] {history : List (List (SourceEvent C V))}
  {group : Group C V} {S' : Multiset (Row C V)} {layout : Layout C} {t : Table C V}

/-- A group under constraints that are not deferred is written, and leaves a table that can hold
the source table again. -/
theorem MirrorsByText.applyTable_settled (h : layout.MirrorsByText t) (engine : LimitOne C V)
    (supportsPrimaryKey : Bool) (applied : String → Bool) (commitId : ℕ)
    (hkeys : t.present = true → t.keyColumns = layout.keyColumns)
    (htrace : Trace (Trace layout.StrictStep) (contents t.rows) history S')
    (hrender : List.Forall₂ (List.Forall₂ fun event record => layout.Renders event record.1 ∧
      (record.1.kind ≠ .truncate → layout.Described record.1)) history group) :
    ∃ t', applyTable engine supportsPrimaryKey applied commitId t group = .ok t' ∧
      contents t'.rows = S' ∧ layout.MirrorsByText t' ∧
      (t'.present = true → t'.keyColumns = layout.keyColumns) := by
  have hflat := List.rel_flatten hrender
  unfold applyTable
  cases hgroup : group.flatten with
  | nil =>
    have hsteps := htrace.flatten
    rw [hgroup] at hflat
    rw [List.forall₂_nil_right_iff.1 hflat] at hsteps
    cases hsteps
    exact ⟨t, rfl, rfl, h, hkeys⟩
  | cons first rest =>
    rw [hgroup] at hflat
    obtain ⟨event, _, ⟨hfirst, -⟩, -⟩ := List.forall₂_cons_right_iff.1 hflat
    have hinit : layout.Settled (contents t.rows) (TableWork.create t.name first.1 false false none)
        (contents t.rows) :=
      ⟨h.simulates_create hfirst.deleteMode_ne, h.distinct, rfl⟩
    obtain ⟨item, hfold, hsettled, hstarted⟩ := h.fold_settled applied commitId hinit htrace
      hrender (by rw [hgroup]; exact List.cons_ne_nil _ _)
    obtain ⟨w, hw⟩ := write_total engine supportsPrimaryKey h hkeys hsettled.simulates
      hstarted hsettled.distinct
    obtain ⟨hcontents, -⟩ := write_contents h.texts hsettled.simulates hsettled.distinct h.absent
      hw
    obtain ⟨hmirrors, hkeys'⟩ := h.written hkeys hsettled.simulates hsettled.distinct hstarted hw
    refine ⟨w.table, ?_, hcontents, hmirrors, hkeys'⟩
    simp only [hfold, hw]
    rfl

end Settled

end Layout

end CdcFlight
