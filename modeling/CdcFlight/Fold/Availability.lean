import CdcFlight.Fold.Simulation

/-!
# The keyed fold does not raise

Without a deferred constraint a key is never worn twice, and then the fold of a described event
never raises: the key of a changed row is no tombstone and has an entry, and attribution has one
entry to choose from, so that neither a partial before-image nor an unchanged-TOAST placeholder
makes it fail.

## Main definitions

* `CdcFlight.Layout.Settled`: the simulation relation when the key is never worn twice.

## Main results

* `CdcFlight.Layout.foldEvent_settled`, `CdcFlight.Layout.foldTransaction_settled`.
-/

namespace CdcFlight

open Lib

namespace Layout

variable {C V : Type} [DecidableEq C] [DecidableEq V] [ColumnValue V] [ToString C]
  {layout : Layout C} {D S T : Multiset (Row C V)} {item item' : TableWork C V}
  {probe : Probe C V} {old new : Row C V} {q : RowPatch C V} {e : PendingRecord C V}
  {eventId : String} {op : Op}

/-! ### Events that cannot raise -/

omit [DecidableEq V] [ToString C] in
/-- A column outside the table is absent from an image's patch. -/
theorem state_of_notMem {image : Option (Image C V)} {descriptors : Dict C Descriptor}
    {typed : Option (TypedImage C V)} {complete : Bool}
    (hw : layout.WellTyped image descriptors typed) {p : C × FieldValue V}
    (hp : p ∈ (RowPatch.fromImage image descriptors typed complete).fields.items)
    (hc : p.1 ∉ layout.columns) : p.2.state = .absent := by
  have hget := Dict.get?_eq_some_iff.2 hp
  rw [RowPatch.get?_fields_fromImage, hw.image_columns _ hc, hw.typed_columns _ hc] at hget
  simp only [Option.none_or] at hget
  obtain ⟨_, -, hf⟩ := Option.map_eq_some_iff.1 hget
  rw [← hf]

/-- The columns of a described event can be declared. -/
theorem declare_total (item : TableWork C V) (commitId : ℕ) (eventId : String) {r : Row C V}
    (he : layout.RowEvent op r e) (hd : layout.Described e) :
    ∃ item', (forM (RowPatch.fromEvent e commitId eventId false).fields.items
      (declareField (if e.op = some .delete then e.beforeDescriptors
        else e.afterDescriptors))).run item = .ok () item' := by
  have hcol (p : C × FieldValue V)
      (hp : p ∈ (RowPatch.fromEvent e commitId eventId false).fields.items)
      (hstate : p.2.state ≠ .absent) : p.1 ∈ layout.columns := by
    by_contra hc
    refine hstate ?_
    unfold RowPatch.fromEvent at hp
    dsimp only at hp
    split_ifs at hp
    · exact state_of_notMem he.before hp hc
    · exact state_of_notMem he.after hp hc
  refine declareFields_total item (consistent_descriptors he) _
    (fun p hp => fieldConsistent_fromEvent he hp) (fun p hp hb => ?_) fun p hp _ hs => ?_
  · have hs : p.2.state ≠ .absent := by
      intro hs
      simp [hs, FieldState.bound?] at hb
    simp [hd.image p.1 (hcol p hp hs)]
  · exact hd.native p.1 (hcol p hp hs)

omit [DecidableEq V] [ToString C] in
/-- The image of an insert holds no placeholder. -/
theorem hasMarker_fromEvent_insert {r : Row C V} (he : layout.RowEvent .create r e)
    (hafter : layout.ShowsAll e.after e.typedAfter r) {commitId : ℕ} :
    (RowPatch.fromEvent e commitId eventId false).hasMarker = false := by
  unfold RowPatch.hasMarker
  refine List.any_eq_false.2 fun f hf => ?_
  obtain ⟨p, hp, rfl⟩ := List.mem_map.1 hf
  have hp' : p ∈ (RowPatch.fromImage e.after e.afterDescriptors e.typedAfter true).fields.items :=
    by simpa [RowPatch.fromEvent, he.op] using hp
  by_cases hc : p.1 ∈ layout.columns
  · have hget := Dict.get?_eq_some_iff.2 hp'
    rw [RowPatch.get?_fields_fromImage, (hafter p.1 hc).1, Option.some.injEq] at hget
    rw [← hget, state_imageField_of_shows he.after (hafter p.1 hc)]
    cases r p.1 <;> simp [FieldState.of]
  · simp [state_of_notMem he.after hp' hc]

omit [DecidableEq V] [ColumnValue V] in
/-- The fold key of a described event can be computed. -/
theorem collectKey_total {r : Row C V} (he : layout.RowEvent op r e) (hd : layout.Described e)
    (hc : layout.Configured item.config) (hkeys : item.keyColumns = layout.keyColumns) :
    ∃ key item', (keyToken (columnOf e.key)
      (e.afterDescriptors.overlay e.keyDescriptors fun _ _ => true) true).run item =
        .ok key item' := by
  have hdesc : layout.Consistent
      (e.afterDescriptors.overlay e.keyDescriptors fun _ _ => true) := by
    intro c d hget
    rw [Dict.get?_overlay] at hget
    cases hk : e.keyDescriptors.get? c with
    | none => exact he.after.descriptors_eq c d (by simpa [hk] using hget)
    | some d' => exact he.keyDescriptors c d (by simpa [hk] using hget)
  refine keyToken_total hdesc hc hkeys _ (fun c hcol => ?_) fun c hcol =>
    hd.native c (layout.keyColumns_subset c hcol) true
  simp [Dict.get?_overlay, hd.key c hcol]

omit [DecidableEq V] [ColumnValue V] in
/-- The fold key of a before-image can be computed once the key columns are known. -/
theorem beforeKey_total {r : Row C V} (he : layout.RowEvent op r e) (hd : layout.Described e)
    (hc : layout.Configured item.config) (hkeys : item.keyColumns = layout.keyColumns)
    (hknown : ∀ c ∈ layout.keyColumns, (item.descriptors.get? c).isSome) :
    ∃ key item', (keyToken (columnOf e.before) e.beforeDescriptors false).run item =
      .ok key item' := by
  refine keyToken_total he.before.descriptors_eq hc hkeys _ (fun c hcol => ?_) fun c hcol =>
    hd.native c (layout.keyColumns_subset c hcol) true
  rw [Option.isSome_or, hknown c hcol, Bool.or_true]

theorem collectDelete_total (hA : layout.Answers probe D) (he : layout.RowEvent .delete old e)
    (hd : layout.Described e) (h : layout.Represents D item S)
    (hc : layout.Configured item.config) (hkeys : item.keyColumns = layout.keyColumns)
    (hknown : ∀ c ∈ layout.keyColumns, (item.descriptors.get? c).isSome)
    (hshow : ∀ c ∈ layout.keyColumns, layout.Shows e.before e.typedBefore c (old c))
    (hdecides : layout.Decides probe D S old e.beforeImage .delete) :
    ∃ item', (collectDelete probe e eventId).run item = .ok () item' := by
  obtain ⟨key, item₁, hkey⟩ := beforeKey_total he hd hc hkeys hknown
  obtain ⟨rfl, hredesc⟩ := beforeKey_ok he hc hkeys hshow hkey
  have hn := Neutral.of_redescribes hredesc hc
  obtain ⟨removed, item₂, hremove⟩ := remove_total hA (hn.represents h) hn.configured
    (hn.keyColumns.trans hkeys) hdecides
  unfold collectDelete
  rw [run_bind_of_ok hkey, run_bind_of_ok hremove]
  exact ⟨_, rfl⟩

theorem collectUpdate_total (hA : layout.Answers probe D) (he : layout.RowEvent .update new e)
    (hd : layout.Described e) (h : layout.Represents D item S)
    (hc : layout.Configured item.config) (hkeys : item.keyColumns = layout.keyColumns)
    (hknown : ∀ c ∈ layout.keyColumns, (item.descriptors.get? c).isSome)
    (hshow : ∀ c ∈ layout.keyColumns,
      layout.Shows e.before e.typedBefore c (old c) ∨ (e.before.getD ∅).get? c = none)
    (hold : old ∈ S) (hdecides : layout.Decides probe D S old e.beforeImage .update)
    (hkey : layout.token new = layout.token old) :
    ∃ item', (collectUpdate probe e (layout.token new) q).run item = .ok () item' := by
  have hupdate (item₁ : TableWork C V) (hn : layout.Neutral item item₁) :
      ∃ item', (update probe (layout.token new) q e.beforeImage).run item₁ = .ok () item' := by
    rw [hkey]
    exact update_total hA (hn.represents h) hn.configured (hn.keyColumns.trans hkeys) hold
      hdecides
  have hrefl : layout.Neutral item item := ⟨rfl, rfl, rfl, rfl, rfl, rfl, rfl, hc, fun _ => id⟩
  obtain ⟨k, hk, hkcols, -⟩ := he.key
  unfold collectUpdate
  simp only [hk]
  split_ifs with hempty hall
  · exact hupdate item hrefl
  · have hshow' : ∀ c ∈ layout.keyColumns, layout.Shows e.before e.typedBefore c (old c) := by
      intro c hcol
      rcases hshow c hcol with hs | hnone
      · exact hs
      · have hin := List.all_eq_true.1 hall c (hkcols ▸ hcol)
        simp [Dict.contains, hnone] at hin
    obtain ⟨key, item₁, hkeyrun⟩ := beforeKey_total he hd hc hkeys hknown
    obtain ⟨rfl, hredesc⟩ := beforeKey_ok he hc hkeys hshow' hkeyrun
    obtain ⟨item', hrun⟩ := hupdate item₁ (Neutral.of_redescribes hredesc hc)
    refine ⟨item', ?_⟩
    rw [run_bind_of_ok hkeyrun, if_pos hkey.symm]
    exact hrun
  · exact hupdate item hrefl

/-- Attribution does not raise on the record of an operation. -/
def DecidesRow (layout : Layout C) (probe : Probe C V) (D S : Multiset (Row C V))
    (e : PendingRecord C V) : SourceEvent C V → Prop
  | .update old _ => layout.Decides probe D S old e.beforeImage .update
  | .delete old => layout.Decides probe D S old e.beforeImage .delete
  | _ => True

/-- The keyed fold of a described event does not raise when attribution does not. -/
theorem collectKeyed_total (hA : layout.Answers probe D) {S' : Multiset (Row C V)}
    {event : SourceEvent C V} {commitId : ℕ} (h : layout.Represents D item S)
    (hc : layout.Configured item.config) (hkeys : item.keyColumns = layout.keyColumns)
    (hstep : layout.Step S event S') (hrender : layout.Renders event e)
    (hrow : e.kind ≠ .truncate) (hd : layout.Described e)
    (hdecides : layout.DecidesRow probe D S e event) :
    ∃ item', (collectKeyed probe e eventId
      (RowPatch.fromEvent e commitId eventId false)).run item = .ok () item' := by
  unfold collectKeyed
  cases hrender with
  | truncate ht _ => exact absurd ht hrow
  | insert he hafter =>
    obtain ⟨key, item₁, hkey⟩ := collectKey_total he hd hc hkeys
    rw [run_bind_of_ok hkey]
    simp only [he.incremental, he.op, Bool.false_eq_true, if_false, EStateM.run_bind,
      EStateM.run_modify, Option.some.injEq, reduceCtorEq]
    exact ⟨_, rfl⟩
  | @update old new _ he hbefore hafter =>
    cases hstep with
    | update hnew hkey =>
      obtain ⟨key, item₁, hkeyrun⟩ := collectKey_total he hd hc hkeys
      obtain ⟨rfl, hredesc, hsome⟩ := collectKey_ok he hc hkeys hkeyrun
      have hn := Neutral.of_redescribes hredesc hc
      have hn' := hn.trans (neutral_addCdcKey hn.configured (layout.token new))
      rw [run_bind_of_ok hkeyrun]
      simp only [he.incremental, he.op, Bool.false_eq_true, if_false, EStateM.run_bind,
        EStateM.run_modify, Option.some.injEq, reduceCtorEq, if_true]
      exact collectUpdate_total hA he hd (hn'.represents h) hn'.configured
        (hn'.keyColumns.trans hkeys) (fun c hcol => (hsome c hcol).1) hbefore.2
        (Multiset.mem_cons_self _ _) hdecides (layout.token_eq_iff.2 hkey)
  | @delete old _ he hbefore hshow =>
    cases hstep with
    | delete =>
      obtain ⟨key, item₁, hkeyrun⟩ := collectKey_total he hd hc hkeys
      obtain ⟨rfl, hredesc, hsome⟩ := collectKey_ok he hc hkeys hkeyrun
      have hn := Neutral.of_redescribes hredesc hc
      have hn' := hn.trans (neutral_addCdcKey hn.configured (layout.token old))
      rw [run_bind_of_ok hkeyrun]
      simp only [he.incremental, he.op, Bool.false_eq_true, if_false, EStateM.run_bind,
        EStateM.run_modify, if_true]
      exact collectDelete_total hA he hd (hn'.represents h) hn'.configured
        (hn'.keyColumns.trans hkeys) (fun c hcol => (hsome c hcol).1) hshow hdecides

/-- The record of an operation does not raise when attribution does not. -/
theorem foldEvent_total (commitId : ℕ) (eventId : String) (hA : layout.Answers probe D)
    {S' : Multiset (Row C V)} {event : SourceEvent C V} (h : layout.Simulates D item S)
    (hstep : layout.Step S event S') (hrender : layout.Renders event e)
    (hd : e.kind ≠ .truncate → layout.Described e)
    (hdecides : layout.DecidesRow probe D S e event) :
    ∃ item', (foldEvent probe commitId (e, eventId)).run item = .ok () item' := by
  have hmode : e.deleteMode ≠ some .soft := by
    cases hrender with
    | insert he _ => exact he.deleteMode
    | update he _ _ => exact he.deleteMode
    | delete he _ _ => exact he.deleteMode
    | truncate _ hm => exact hm
  have hobs : (observe e none).run item = .ok () ((item.recordSource e).identify e) := by
    have hhard : item.deleteMode = .hard := h.configured.deleteMode
    unfold observe
    simp only [EStateM.run_bind, EStateM.run_get]
    rw [if_neg]
    · rfl
    · cases hm : e.deleteMode with
      | none => simp
      | some m =>
        cases m with
        | hard => simp [hhard]
        | soft => exact absurd hm hmode
  unfold foldEvent
  rw [run_bind_of_ok hobs]
  dsimp only
  split_ifs with hkind
  · exact ⟨_, rfl⟩
  · obtain ⟨r, op, he⟩ : ∃ r op, layout.RowEvent op r e := by
      cases hrender with
      | insert he _ => exact ⟨_, _, he⟩
      | update he _ _ => exact ⟨_, _, he⟩
      | delete he _ _ => exact ⟨_, _, he⟩
      | truncate ht _ => exact absurd ht hkind
    obtain ⟨hrep, hc, hid, hkeys, hmulti, -⟩ := observed_row h he
    simp only [EStateM.run_bind, EStateM.run_get]
    rw [show ((item.recordSource e).identify e).snapshot = false from hc.snapshot]
    unfold collect
    rw [if_neg hkind]
    obtain ⟨item₁, hdeclare⟩ := declare_total ((item.recordSource e).identify e) commitId
      eventId he (hd hkind)
    obtain ⟨hredesc, -⟩ := declareFields_ok (consistent_descriptors he) _
      (fun p hp => fieldConsistent_fromEvent he hp) hc.descriptors hc.nativeColumns hdeclare
    have hn := Neutral.of_redescribes hredesc hc
    have hn' := hn.trans (neutral_countEvent hn.configured)
    have hmarker : ((RowPatch.fromEvent e commitId eventId false).hasMarker &&
        (e.op = some .create || e.op = some .read)) = false := by
      cases hrender with
      | insert he hafter => simp [hasMarker_fromEvent_insert he hafter]
      | update he _ _ => simp [he.op]
      | delete he _ _ => simp [he.op]
      | truncate ht _ => exact absurd ht hkind
    have hkeyless : item₁.countEvent.keyless = false := hn'.configured.keyless
    rw [run_bind_of_ok hdeclare]
    simp only [EStateM.run_bind, EStateM.run_modify, hmarker, Bool.false_eq_true, if_false,
      EStateM.run_get, hkeyless]
    exact collectKeyed_total hA (hn'.represents hrep) hn'.configured (hn'.keyColumns.trans hkeys)
      hstep hrender hkind (hd hkind) hdecides

/-! ### Transactions under a constraint that is not deferred -/

omit [ColumnValue V] [ToString C] in
/-- A key worn at most once has at most one concrete entry. -/
theorem concrete_le_one (hS : layout.KeysDistinct S) (h : layout.Represents D item S)
    (k : Token V) : concrete (item.entriesAt k) ≤ 1 := by
  cases hget : item.live.get? k with
  | none => simp [TableWork.entriesAt, hget, concrete]
  | some es =>
    rw [entriesAt_of_get? hget]
    have hwf := h.wellFormed k es hget
    have hcard : (layout.denoteAll D k es).card ≤ 1 := h.seen k es hget ▸ hS.card_rowsAt_le k
    have hne (e : Entry C V) (he : e ∈ es) (hs : e ≠ .start) : layout.denote D k e ≠ 0 := by
      cases e with
      | start => exact absurd rfl hs
      | patch p =>
        simp only [denote]
        split_ifs with hp
        · simp
        · simpa using (hwf.sparse p he (by simpa using hp)).2
      | move s t p => exact absurd he (hwf.no_move s t p)
    cases es with
    | nil => simp [concrete]
    | cons e es =>
      have htail : es.length ≤ (layout.denoteAll D k es).card :=
        length_le_card_denoteAll fun e' he' => hne e' (List.mem_cons_of_mem _ he')
          fun hs => hwf.start_head (hs ▸ he')
      rw [denoteAll_cons, Multiset.card_add] at hcard
      by_cases hs : e = .start
      · subst hs
        simp only [concrete]
        omega
      · have hhead : 0 < (layout.denote D k e).card :=
          Multiset.card_pos.2 (hne e List.mem_cons_self hs)
        have hlen : concrete (e :: es) = (e :: es).length := by
          cases e <;> simp_all [concrete]
        rw [hlen, List.length_cons]
        omega

/-- The simulation relation between two operations of a table whose key is never worn twice. -/
structure Settled (layout : Layout C) (D : Multiset (Row C V)) (item : TableWork C V)
    (S : Multiset (Row C V)) : Prop where
  simulates : layout.Simulates D item S
  distinct : layout.KeysDistinct S
  multi : item.multi = ∅

/-- **One record under a constraint that is not deferred.** It does not raise, whatever its
before-image holds, and the fold stands for the source. -/
theorem foldEvent_settled (commitId : ℕ) (hA : layout.Answers probe D)
    (hD : layout.KeysDistinct D) {S' : Multiset (Row C V)} {event : SourceEvent C V}
    (h : layout.Settled D item S) (hstep : layout.StrictStep S event S')
    (hrender : layout.Renders event e) (hd : e.kind ≠ .truncate → layout.Described e) :
    ∃ item', (foldEvent probe commitId (e, eventId)).run item = .ok () item' ∧
      layout.Settled D item' S' ∧ Started item' := by
  have hsingle (old : Row C V) (hold : old ∈ S) (what : Attributed) :
      layout.Decides probe D S old e.beforeImage what ∧
        layout.Finds probe D S old e.beforeImage what := by
    constructor
    · intro item₁ hrep hc hkeys hs
      obtain ⟨index, item₂, hrun, -⟩ := targetEntry_single e.beforeImage what
        hA hD hrep h.distinct hc hkeys hs hold
      exact ⟨index, item₂, hrun⟩
    · intro item₁ hrep hc hkeys hs index item₂ hrun
      obtain ⟨index', item₃, hrun', hfound⟩ :=
        targetEntry_single e.beforeImage what hA hD hrep h.distinct hc hkeys
          hs hold
      rw [hrun] at hrun'
      cases hrun'
      exact hfound
  have hrow : layout.DecidesRow probe D S e event ∧ layout.FindsRow probe D S e event := by
    cases hstep.1 with
    | insert _ => exact ⟨trivial, trivial⟩
    | truncate => exact ⟨trivial, trivial⟩
    | update _ _ => exact hsingle _ (Multiset.mem_cons_self _ _) _
    | delete => exact hsingle _ (Multiset.mem_cons_self _ _) _
  obtain ⟨item', hrun⟩ := foldEvent_total commitId eventId hA h.simulates hstep.1
    hrender hd hrow.1
  obtain ⟨hsim, htracked, hstarted⟩ := foldEvent_ok hA h.simulates hstep.1 hrender hrow.2 hrun
  refine ⟨item', hrun, ⟨hsim, hstep.2, ?_⟩, hstarted⟩
  refine Finset.eq_empty_of_forall_notMem fun k hk => ?_
  rcases htracked k hk with hold | hmany
  · rw [h.multi] at hold
    exact Finset.notMem_empty k hold
  · exact absurd (concrete_le_one hstep.2 hsim.represents k) (by omega)

/-- A source transaction under a constraint that is not deferred does not raise. -/
theorem foldTransaction_settled (commitId : ℕ) (hA : layout.Answers probe D)
    (hD : layout.KeysDistinct D)
    {S' : Multiset (Row C V)} {events : List (SourceEvent C V)}
    {records : List (PendingRecord C V × String)}
    (h : layout.Settled D item S) (htxn : Trace layout.StrictStep S events S')
    (hrender : List.Forall₂ (fun event record => layout.Renders event record.1 ∧
      (record.1.kind ≠ .truncate → layout.Described record.1)) events records) :
    ∃ item', (foldTransaction probe commitId records).run item = .ok () item' ∧
      layout.Settled D item' S' ∧ (records ≠ [] ∨ Started item → Started item') := by
  obtain ⟨item', hrun, hsettled, hstarted⟩ : ∃ item',
      (forM records (foldEvent probe commitId)).run item = .ok () item' ∧
        layout.Settled D item' S' ∧ ((∃ r ∈ records, True) ∨ Started item → Started item') := by
    refine Trace.refine (layout.Settled D) (fun _ => True) Started ?_ htxn hrender h
    rintro item S event S' ⟨e, eventId⟩ hsim hstep ⟨hrend, hdesc⟩
    obtain ⟨item', hrun, hsettled, hstarted⟩ :=
      foldEvent_settled commitId hA hD hsim hstep hrend hdesc
    exact ⟨item', hrun, hsettled, fun _ => hstarted⟩
  refine ⟨item', ?_, hsettled, fun hne => hstarted (hne.imp_left fun hne => ?_)⟩
  · unfold foldTransaction
    rw [run_bind_of_ok hrun]
    unfold endTransaction
    simp only [EStateM.run_bind, EStateM.run_get, hsettled.multi, ne_eq, not_true_eq_false,
      if_false]
    rfl
  · obtain ⟨r, hr⟩ := List.exists_mem_of_ne_nil _ hne
    exact ⟨r, hr, trivial⟩

end Layout

end CdcFlight
