import CdcFlight.Fold.Attribution

/-!
# The keyed fold simulates the source

Folding the record of a physical operation keeps the fold standing for the source table, whenever
attribution finds the row and the fold does not raise. With full before-images attribution finds
the row, also where a deferred constraint lets several rows wear one key.

## Main definitions

* `CdcFlight.Layout.Simulates`: the simulation relation of whole fold states.

## Main results

* `CdcFlight.Layout.foldEvent_ok`: one record that does not raise, given that attribution finds the
  row.
* `CdcFlight.Layout.foldTransaction_full`: a source transaction with full before-images.
-/

namespace CdcFlight

open Lib

namespace Layout

variable {C V : Type} [DecidableEq C] [DecidableEq V] (layout : Layout C)

/-- Every key that becomes marked as worn twice is. -/
def Tracked (item item' : TableWork C V) : Prop :=
  ∀ k ∈ item'.multi, k ∈ item.multi ∨ 1 < concrete (item'.entriesAt k)

/-- An operation on rows leads from a fold to one that stands for the source state `S'`. -/
structure Leads (D : Multiset (Row C V)) (item item' : TableWork C V) (S' : Multiset (Row C V)) :
    Prop where
  represents : layout.Represents D item' S'
  config : item'.config = item.config
  tracked : Tracked item item'

variable {layout} {D S T : Multiset (Row C V)} {item item' : TableWork C V} {k : Token V}
  {probe : Probe C V}

omit [DecidableEq C] in
theorem tracked_track (item item₁ : TableWork C V) (h : item₁.multi = item.multi) (k : Token V) :
    Tracked item (item₁.track k) := by
  intro j hj
  unfold TableWork.track at hj
  dsimp only at hj
  split_ifs at hj with hc
  · rcases Finset.mem_insert.1 hj with rfl | hj
    · exact Or.inr hc.2
    · exact Or.inl (h ▸ hj)
  · exact Or.inl (h ▸ Finset.mem_of_mem_erase hj)

/-! ### Inserts, updates and deletes -/

theorem place_leads (h : layout.Represents D item S) {r : Row C V} {p : RowPatch C V}
    (hp : p.complete = true) (hr : p.apply (fun _ => none) = r) :
    layout.Leads D item (item.place (layout.token r) p none) (r ::ₘ S) where
  represents := h.place hp hr
  config := config_place _ _ _ _
  tracked := by
    refine tracked_track _ _ ?_ _
    simp [TableWork.setEntries, TableWork.clearTombstone]

variable [ColumnValue V] {old new : Row C V} {q : RowPatch C V} {before : BeforeImage C V}

/-- An update, given that attribution finds the row. -/
theorem update_leads (hinc : item.incremental = false)
    (hfind : ∀ index item₁,
      (targetEntry probe (layout.token old) before .update).run
        (item.settleStart probe (layout.token old)) = .ok index item₁ →
      layout.Found D (old ::ₘ T) (item.settleStart probe (layout.token old)) old index item₁)
    (hq : q.complete = false) (happly : q.apply old = new)
    (hkey : layout.token new = layout.token old)
    (hrun : (update probe (layout.token old) q before).run item = .ok () item') :
    layout.Leads D item item' (new ::ₘ T) := by
  unfold update at hrun
  simp only [EStateM.run_bind, EStateM.run_get] at hrun
  split_ifs at hrun with hdel
  · cases hrun
  simp only [EStateM.run_bind, EStateM.run_set, EStateM.run_get] at hrun
  have hinc' : (item.settleStart probe (layout.token old)).incremental = false := by
    have := congrArg FoldConfig.incremental (config_settleStart item (layout.token old) probe)
    exact this.trans hinc
  split_ifs at hrun with hnil
  · simp only [EStateM.run_bind, EStateM.run_get, hinc', Bool.false_and, Bool.false_eq_true,
      if_false] at hrun
    cases hrun
  · rw [run_bind_eq_ok] at hrun
    obtain ⟨index, item₁, htarget, hrun⟩ := hrun
    obtain ⟨⟨i, e, rfl, hi, he⟩, hseen, hrep, hconf, hmulti⟩ := hfind index item₁ htarget
    cases hrun
    refine ⟨hrep.replace (get?_of_isSome hseen) hi he hq happly hkey, ?_, ?_⟩
    · simp [hconf]
    · exact tracked_track _ _ (by simpa [TableWork.setEntries] using hmulti) _

/-- A delete, given that attribution finds the row. -/
theorem remove_leads
    (hfind : ∀ index item₁,
      (targetEntry probe (layout.token old) before .delete).run
        (item.settleStart probe (layout.token old)) = .ok index item₁ →
      layout.Found D (old ::ₘ T) (item.settleStart probe (layout.token old)) old index item₁)
    {removed : Option (Entry C V)}
    (hrun : (remove probe (layout.token old) before).run item = .ok removed item') :
    layout.Leads D item item' T := by
  unfold remove at hrun
  simp only [EStateM.run_bind, EStateM.run_modify] at hrun
  cases htarget : (targetEntry probe (layout.token old) before .delete).run
      (item.settleStart probe (layout.token old)) with
  | error r item₁ =>
    rw [htarget] at hrun
    cases hrun
  | ok index item₁ =>
    obtain ⟨⟨i, e, rfl, hi, he⟩, hseen, hrep, hconf, hmulti⟩ := hfind index item₁ htarget
    rw [htarget] at hrun
    simp only [EStateM.run_get] at hrun
    have htake := hrep.take (get?_of_isSome hseen) hi he
    split_ifs at hrun with hleft
    · cases hrun
      have hget : (item₁.setEntries (layout.token old)
          ((item₁.entriesAt (layout.token old)).eraseIdx i)).live.get? (layout.token old) =
            some [] := by
        rw [get?_setEntries, if_pos rfl, hleft]
      refine ⟨(htake.bury hget).track _, by simp [hconf], ?_⟩
      exact tracked_track _ _
        (by simpa [TableWork.setEntries, TableWork.addTombstone] using hmulti) _
    · cases hrun
      refine ⟨htake.track _, by simp [hconf], ?_⟩
      exact tracked_track _ _ (by simpa [TableWork.setEntries] using hmulti) _

/-- Attribution, where it answers, finds the row. -/
def Finds (layout : Layout C) (probe : Probe C V) (D S : Multiset (Row C V)) (old : Row C V)
    (before : BeforeImage C V) (what : Attributed) : Prop :=
  ∀ item : TableWork C V, layout.Represents D item S → layout.Configured item.config →
    item.keyColumns = layout.keyColumns → (item.live.get? (layout.token old)).isSome →
    ∀ index item₁, (targetEntry probe (layout.token old) before what).run item =
      .ok index item₁ → layout.Found D S item old index item₁

/-- Attribution does not raise. -/
def Decides (layout : Layout C) (probe : Probe C V) (D S : Multiset (Row C V)) (old : Row C V)
    (before : BeforeImage C V) (what : Attributed) : Prop :=
  ∀ item : TableWork C V, layout.Represents D item S → layout.Configured item.config →
    item.keyColumns = layout.keyColumns → (item.live.get? (layout.token old)).isSome →
    ∃ index item₁, (targetEntry probe (layout.token old) before what).run item = .ok index item₁

omit [ColumnValue V] in
/-- The state in which an update or a delete attributes its row. -/
theorem settled (hA : layout.Answers probe D) (h : layout.Represents D item S)
    (hc : layout.Configured item.config) (hkeys : item.keyColumns = layout.keyColumns)
    (r : Row C V) :
    layout.Represents D (item.settleStart probe (layout.token r)) S ∧
      layout.Configured (item.settleStart probe (layout.token r)).config ∧
      (item.settleStart probe (layout.token r)).keyColumns = layout.keyColumns ∧
      ((item.settleStart probe (layout.token r)).live.get? (layout.token r)).isSome := by
  have hseed := config_seed item (layout.token r)
  have hprobe : probe.startExists (item.seed (layout.token r)) (layout.token r) = true ↔
      layout.rowsAt D (layout.token r) ≠ 0 :=
    hA.exists_iff (hseed ▸ hc) ((congrArg FoldConfig.keyColumns hseed).trans hkeys) ⟨r, rfl⟩
  have hconf := config_settleStart item (layout.token r) probe
  exact ⟨h.settleStart ⟨r, rfl⟩ hprobe, hconf ▸ hc,
    (congrArg FoldConfig.keyColumns hconf).trans hkeys, Represents.isSome_settleStart _ _⟩

omit [ColumnValue V] in
/-- A key worn by a row has entries. -/
theorem entriesAt_ne_nil (h : layout.Represents D item S) (hold : old ∈ S)
    (hs : (item.live.get? (layout.token old)).isSome) :
    item.entriesAt (layout.token old) ≠ [] := by
  intro hnil
  have hmem : old ∈ layout.rowsAt S (layout.token old) := mem_rowsAt.2 ⟨hold, rfl⟩
  rw [h.seen _ _ (get?_of_isSome hs), hnil, denoteAll_nil] at hmem
  exact Multiset.notMem_zero _ hmem

omit [ColumnValue V] in
/-- A key worn by a row is no tombstone. -/
theorem notMem_deletedKeys (h : layout.Represents D item S) (hold : old ∈ S) :
    layout.token old ∉ item.deletedKeys := by
  intro hdel
  have hget := h.deleted _ hdel
  exact entriesAt_ne_nil h hold (by simp [hget]) (entriesAt_of_get? hget)

/-- An update of a present row does not raise when attribution does not. -/
theorem update_total (hA : layout.Answers probe D) (h : layout.Represents D item S)
    (hc : layout.Configured item.config) (hkeys : item.keyColumns = layout.keyColumns)
    (hold : old ∈ S) (hdecides : layout.Decides probe D S old before .update) :
    ∃ item', (update probe (layout.token old) q before).run item = .ok () item' := by
  obtain ⟨hrep, hc', hkeys', hs⟩ := settled hA h hc hkeys old
  obtain ⟨index, item₁, htarget⟩ := hdecides _ hrep hc' hkeys' hs
  unfold update
  simp only [EStateM.run_bind, EStateM.run_get, notMem_deletedKeys h hold, if_false,
    EStateM.run_set, entriesAt_ne_nil hrep hold hs, htarget]
  cases index <;> exact ⟨_, rfl⟩

/-- A delete of a present row does not raise when attribution does not. -/
theorem remove_total (hA : layout.Answers probe D) (h : layout.Represents D item S)
    (hc : layout.Configured item.config) (hkeys : item.keyColumns = layout.keyColumns)
    (hdecides : layout.Decides probe D S old before .delete) :
    ∃ removed item', (remove probe (layout.token old) before).run item = .ok removed item' := by
  obtain ⟨hrep, hc', hkeys', hs⟩ := settled hA h hc hkeys old
  obtain ⟨index, item₁, htarget⟩ := hdecides _ hrep hc' hkeys' hs
  unfold remove
  simp only [EStateM.run_bind, EStateM.run_modify, htarget, EStateM.run_get]
  split_ifs <;> exact ⟨_, _, rfl⟩

/-! ### Bookkeeping around the operations -/

/-- A state with the same rows, on which the table is still configured. -/
structure Neutral (layout : Layout C) (item item' : TableWork C V) : Prop where
  live : item'.live = item.live
  truncated : item'.truncated = item.truncated
  deletedKeys : item'.deletedKeys = item.deletedKeys
  startPresent : item'.startPresent = item.startPresent
  multi : item'.multi = item.multi
  identified : item'.identified = item.identified
  keyColumns : item'.keyColumns = item.keyColumns
  configured : layout.Configured item'.config
  keepsNative : ∀ c, (item.nativeColumns.get? c).isSome → (item'.nativeColumns.get? c).isSome

namespace Neutral

variable {item₁ : TableWork C V}

omit [DecidableEq V] [ColumnValue V] in
theorem trans (h : layout.Neutral item item₁) (h' : layout.Neutral item₁ item') :
    layout.Neutral item item' :=
  ⟨h'.live.trans h.live, h'.truncated.trans h.truncated, h'.deletedKeys.trans h.deletedKeys,
    h'.startPresent.trans h.startPresent, h'.multi.trans h.multi,
    h'.identified.trans h.identified, h'.keyColumns.trans h.keyColumns, h'.configured,
    fun c hc => h'.keepsNative c (h.keepsNative c hc)⟩

omit [ColumnValue V] in
theorem represents (h : layout.Neutral item item') (hr : layout.Represents D item S) :
    layout.Represents D item' S :=
  hr.congr h.live h.truncated h.deletedKeys h.startPresent

omit [DecidableEq V] [ColumnValue V] in
theorem of_redescribes (h : layout.Redescribes item item') (hc : layout.Configured item.config) :
    layout.Neutral item item' := by
  have heq := h.eq
  refine ⟨?_, ?_, ?_, ?_, ?_, ?_, ?_, h.configured hc, h.keepsNative⟩ <;> rw [heq] <;> rfl

omit [ColumnValue V] in
theorem tracked (h : layout.Neutral item item₁) (ht : Tracked item₁ item') :
    Tracked item item' := by
  intro k hk
  have := ht k hk
  rwa [h.multi] at this

end Neutral

omit [DecidableEq V] [ColumnValue V] in
/-- The end of a delete: the effect is recorded, and in hard-delete mode nothing else. -/
theorem neutral_deleteEffects (hc : layout.Configured item.config)
    (softDeletes : Dict (Token V) (KeylessOperation C V)) (hsoft : softDeletes = item.softDeletes)
    (deleteEffects : Dict String (KeylessOperation C V)) :
    layout.Neutral item
      { item with softDeletes := softDeletes, deleteEffects := deleteEffects } := by
  subst hsoft
  exact ⟨rfl, rfl, rfl, rfl, rfl, rfl, rfl,
    ⟨hc.snapshot, hc.incremental, hc.keyless, hc.deleteMode, hc.previousDeleteMode,
      hc.keyColumns, hc.descriptors, hc.nativeColumns, hc.softDeletes⟩, fun _ => id⟩

omit [DecidableEq V] [ColumnValue V] [DecidableEq C] in
theorem token_congr {f g : C → Option V} (h : ∀ c ∈ layout.keyColumns, f c = g c) :
    layout.token f = layout.token g :=
  List.map_congr_left fun c hc => by rw [h c hc]

/-! ### Events -/

variable [ToString C] {e : PendingRecord C V} {eventId : String} {op : Op}

omit [DecidableEq V] [ColumnValue V] in
/-- The fold key of an event is the key of its row. -/
theorem collectKey_ok {r : Row C V} (he : layout.RowEvent op r e)
    (hc : layout.Configured item.config) (hkeys : item.keyColumns = layout.keyColumns)
    {key : Token V} (h : (keyToken (columnOf e.key)
      (e.afterDescriptors.overlay e.keyDescriptors fun _ _ => true) true).run item =
        .ok key item') :
    key = layout.token r ∧ layout.Redescribes item item' ∧
      ∀ c ∈ layout.keyColumns, (item'.descriptors.get? c).isSome ∧
        (item'.nativeColumns.get? c).isSome := by
  have hdesc : layout.Consistent
      (e.afterDescriptors.overlay e.keyDescriptors fun _ _ => true) := by
    intro c d hd
    rw [Dict.get?_overlay] at hd
    cases hk : e.keyDescriptors.get? c with
    | none => exact he.after.descriptors_eq c d (by simpa [hk] using hd)
    | some d' => exact he.keyDescriptors c d (by simpa [hk] using hd)
  obtain ⟨rfl, hr, hsome⟩ := keyToken_ok hdesc hc hkeys h
  refine ⟨token_congr fun c hcol => ?_, hr, hsome rfl⟩
  obtain ⟨k, hk, -, hval⟩ := he.key
  simp [columnOf, hk, hval c hcol]

omit [DecidableEq V] in
/-- The fold key of a before-image that shows the key. -/
theorem beforeKey_ok {r : Row C V} (he : layout.RowEvent op r e)
    (hc : layout.Configured item.config)
    (hkeys : item.keyColumns = layout.keyColumns)
    (hshow : ∀ c ∈ layout.keyColumns, layout.Shows e.before e.typedBefore c (old c))
    {key : Token V}
    (h : (keyToken (columnOf e.before) e.beforeDescriptors false).run item = .ok key item') :
    key = layout.token old ∧ layout.Redescribes item item' := by
  obtain ⟨rfl, hr, -⟩ := keyToken_ok he.before.descriptors_eq hc hkeys h
  refine ⟨token_congr fun c hcol => ?_, hr⟩
  simp [columnOf, (hshow c hcol).1]

/-- A step of the fold leads to a state that stands for `S'`, on which the table is still
configured and its key columns are declared. -/
structure Advances (layout : Layout C) (D : Multiset (Row C V)) (item item' : TableWork C V)
    (S' : Multiset (Row C V)) : Prop where
  represents : layout.Represents D item' S'
  configured : layout.Configured item'.config
  identified : item'.identified = item.identified
  keyColumns : item'.keyColumns = item.keyColumns
  tracked : Tracked item item'
  declared : ∀ c ∈ layout.keyColumns, (item'.nativeColumns.get? c).isSome
  keepsNative : ∀ c, (item.nativeColumns.get? c).isSome → (item'.nativeColumns.get? c).isSome

omit [ColumnValue V] [ToString C] in
theorem Leads.advances {item₁ : TableWork C V} {S' : Multiset (Row C V)}
    (hn : layout.Neutral item item₁) (h : layout.Leads D item₁ item' S')
    (hdeclared : ∀ c ∈ layout.keyColumns, (item₁.nativeColumns.get? c).isSome) :
    layout.Advances D item item' S' where
  represents := h.represents
  configured := h.config ▸ hn.configured
  identified := (congrArg FoldConfig.identified h.config).trans hn.identified
  keyColumns := (congrArg FoldConfig.keyColumns h.config).trans hn.keyColumns
  tracked := hn.tracked h.tracked
  declared c hc := by
    have hnative : item'.nativeColumns = item₁.nativeColumns :=
      congrArg FoldConfig.nativeColumns h.config
    rw [hnative]
    exact hdeclared c hc
  keepsNative c hc := by
    have hnative : item'.nativeColumns = item₁.nativeColumns :=
      congrArg FoldConfig.nativeColumns h.config
    rw [hnative]
    exact hn.keepsNative c hc

omit [ColumnValue V] [ToString C] in
theorem neutral_addCdcKey (hc : layout.Configured item.config) (key : Token V) :
    layout.Neutral item (item.addCdcKey key) :=
  ⟨rfl, rfl, rfl, rfl, rfl, rfl, rfl, hc, fun _ => id⟩

omit [DecidableEq V] [ColumnValue V] [ToString C] in
theorem neutral_countEvent (hc : layout.Configured item.config) :
    layout.Neutral item item.countEvent :=
  ⟨rfl, rfl, rfl, rfl, rfl, rfl, rfl, hc, fun _ => id⟩

omit [ToString C] in
/-- Attribution at the state an update or a delete settles. -/
theorem Finds.settled {what : Attributed} (hA : layout.Answers probe D)
    (hfind : layout.Finds probe D S old before what) (h : layout.Represents D item S)
    (hc : layout.Configured item.config) (hkeys : item.keyColumns = layout.keyColumns)
    (index : Option ℕ) (item₁ : TableWork C V)
    (hrun : (targetEntry probe (layout.token old) before what).run
      (item.settleStart probe (layout.token old)) = .ok index item₁) :
    layout.Found D S (item.settleStart probe (layout.token old)) old index item₁ := by
  obtain ⟨hrep, hc', hkeys', hs⟩ := Layout.settled hA h hc hkeys old
  exact hfind _ hrep hc' hkeys' hs index item₁ hrun

/-- The record of a delete. -/
theorem collectDelete_ok (hA : layout.Answers probe D) (he : layout.RowEvent .delete old e)
    (h : layout.Represents D item (old ::ₘ T)) (hc : layout.Configured item.config)
    (hkeys : item.keyColumns = layout.keyColumns)
    (hshow : ∀ c ∈ layout.keyColumns, layout.Shows e.before e.typedBefore c (old c))
    (hfind : layout.Finds probe D (old ::ₘ T) old e.beforeImage .delete)
    (hdeclared : ∀ c ∈ layout.keyColumns, (item.nativeColumns.get? c).isSome)
    (hrun : (collectDelete probe e eventId).run item = .ok () item') :
    layout.Advances D item item' T := by
  unfold collectDelete at hrun
  rw [run_bind_eq_ok] at hrun
  obtain ⟨key, item₁, hkey, hrun⟩ := hrun
  obtain ⟨rfl, hredesc⟩ := beforeKey_ok he hc hkeys hshow hkey
  rw [run_bind_eq_ok] at hrun
  obtain ⟨removed, item₂, hremove, hrun⟩ := hrun
  have hn := Neutral.of_redescribes hredesc hc
  have hkeys₁ := hn.keyColumns.trans hkeys
  have hleads : layout.Leads D item₁ item₂ T :=
    remove_leads (hfind.settled hA (hn.represents h) hn.configured hkeys₁) hremove
  have hadv := hleads.advances hn fun c hcol => hredesc.keepsNative c (hdeclared c hcol)
  have hsoft : (if item₂.deleteMode = .soft then item₂.softDeletes.set (layout.token old)
      { keylessOperation e eventId with before := e.before, deleteMode := item₂.deleteMode }
      else item₂.softDeletes) = item₂.softDeletes := by
    have hmode : item₂.deleteMode = .hard := hadv.configured.deleteMode
    simp [hmode]
  cases hrun
  have hn₂ := neutral_deleteEffects hadv.configured _ hsoft
    (item₂.deleteEffects.set eventId
      { keylessOperation e eventId with before := e.before, deleteMode := item₂.deleteMode })
  refine ⟨hn₂.represents hadv.represents, hn₂.configured, hadv.identified, hadv.keyColumns,
    fun k hk => hadv.tracked k hk, hadv.declared, hadv.keepsNative⟩

/-- The record of an update: the old key, where the before-image shows it, is the event's key. -/
theorem collectUpdate_ok (hA : layout.Answers probe D) (he : layout.RowEvent .update new e)
    (h : layout.Represents D item (old ::ₘ T)) (hc : layout.Configured item.config)
    (hkeys : item.keyColumns = layout.keyColumns)
    (hshow : ∀ c ∈ layout.keyColumns,
      layout.Shows e.before e.typedBefore c (old c) ∨ (e.before.getD ∅).get? c = none)
    (hfind : layout.Finds probe D (old ::ₘ T) old e.beforeImage .update)
    (hq : q.complete = false) (happly : q.apply old = new)
    (hkey : layout.token new = layout.token old)
    (hdeclared : ∀ c ∈ layout.keyColumns, (item.nativeColumns.get? c).isSome)
    (hrun : (collectUpdate probe e (layout.token new) q).run item = .ok () item') :
    layout.Advances D item item' (new ::ₘ T) := by
  -- every branch that does not raise ends in `update` on a state with the same rows
  have hupdate (item₁ : TableWork C V) (hn : layout.Neutral item item₁)
      (hdecl : ∀ c ∈ layout.keyColumns, (item₁.nativeColumns.get? c).isSome)
      (hrun : (update probe (layout.token new) q e.beforeImage).run item₁ = .ok () item') :
      layout.Advances D item item' (new ::ₘ T) := by
    rw [hkey] at hrun
    have hkeys₁ := hn.keyColumns.trans hkeys
    exact (update_leads hn.configured.incremental
      (hfind.settled hA (hn.represents h) hn.configured hkeys₁) hq happly hkey hrun).advances hn
        hdecl
  have hrefl : layout.Neutral item item := ⟨rfl, rfl, rfl, rfl, rfl, rfl, rfl, hc, fun _ => id⟩
  obtain ⟨k, hk, hkcols, -⟩ := he.key
  unfold collectUpdate at hrun
  simp only [hk] at hrun
  split_ifs at hrun with hempty hall
  · exact hupdate item hrefl hdeclared hrun
  · rw [run_bind_eq_ok] at hrun
    obtain ⟨key, item₁, hkeyrun, hrun⟩ := hrun
    have hshow' : ∀ c ∈ layout.keyColumns, layout.Shows e.before e.typedBefore c (old c) := by
      intro c hcol
      rcases hshow c hcol with hs | hnone
      · exact hs
      · have hin := List.all_eq_true.1 hall c (hkcols ▸ hcol)
        simp [Dict.contains, hnone] at hin
    obtain ⟨rfl, hredesc⟩ := beforeKey_ok he hc hkeys hshow' hkeyrun
    rw [if_pos hkey.symm] at hrun
    exact hupdate item₁ (Neutral.of_redescribes hredesc hc)
      (fun c hcol => hredesc.keepsNative c (hdeclared c hcol)) hrun
  · exact hupdate item hrefl hdeclared hrun

omit [DecidableEq V] [ToString C] in
/-- The fields of an image's patch carry the catalog's descriptors. -/
theorem fieldConsistent_fromImage {image : Option (Image C V)} {descriptors : Dict C Descriptor}
    {typed : Option (TypedImage C V)} {complete : Bool}
    (hw : layout.WellTyped image descriptors typed) {p : C × FieldValue V}
    (hp : p ∈ (RowPatch.fromImage image descriptors typed complete).fields.items) :
    layout.FieldConsistent p := by
  intro d hd
  obtain ⟨c, f⟩ := p
  have hget := Dict.get?_eq_some_iff.2 hp
  rw [RowPatch.get?_fields_fromImage] at hget
  cases hi : (image.getD ∅).get? c with
  | some raw =>
    simp only [hi, Option.some.injEq] at hget
    have hfield : (fieldValue raw (descriptors.get? c)).descriptor = some d →
        d = layout.catalog c := by
      intro h
      refine hw.descriptors_eq c d ?_
      unfold fieldValue at h
      split_ifs at h <;> exact h
    unfold RowPatch.imageField at hget
    split at hget
    · rename_i d' ht
      subst hget
      exact hw.typed_eq c _ d ht hd
    · rename_i d' ht
      subst hget
      exact hw.typed_eq c _ d ht hd
    · rename_i d' ht
      subst hget
      exact hw.typed_eq c _ d ht hd
    · subst hget
      exact hfield hd
  | none =>
    simp only [hi] at hget
    rcases Option.or_eq_some_iff.1 hget with ht | ⟨-, ht⟩
    · exact hw.typed_eq c f d ht hd
    · obtain ⟨_, -, rfl⟩ := Option.map_eq_some_iff.1 ht
      simp at hd

omit [DecidableEq V] [ToString C] in
/-- The fields of an event's patch carry the catalog's descriptors. -/
theorem fieldConsistent_fromEvent {r : Row C V} (he : layout.RowEvent op r e) {commitId : ℕ}
    {p : C × FieldValue V} (hp : p ∈ (RowPatch.fromEvent e commitId eventId false).fields.items) :
    layout.FieldConsistent p := by
  unfold RowPatch.fromEvent at hp
  dsimp only at hp
  split_ifs at hp
  · exact fieldConsistent_fromImage he.before hp
  · exact fieldConsistent_fromImage he.after hp

omit [DecidableEq V] [ColumnValue V] [ToString C] in
/-- The descriptors the columns of an event are declared under are the catalog's. -/
theorem consistent_descriptors {r : Row C V} (he : layout.RowEvent op r e) :
    layout.Consistent
      (if e.op = some .delete then e.beforeDescriptors else e.afterDescriptors) := by
  split_ifs
  · exact he.before.descriptors_eq
  · exact he.after.descriptors_eq

/-- A row event of the table reaches the keyed fold. -/
theorem collect_ok {r : Row C V} (he : layout.RowEvent op r e) {commitId : ℕ}
    (hc : layout.Configured item.config)
    (hrun : (collect probe e eventId (RowPatch.fromEvent e commitId eventId false)).run item =
      .ok () item') :
    ∃ item₁, layout.Neutral item item₁ ∧
      (∀ p ∈ (RowPatch.fromEvent e commitId eventId false).fields.items,
        p.2.state.bound?.isSome → (item₁.nativeColumns.get? p.1).isSome) ∧
      (collectKeyed probe e eventId
        (RowPatch.fromEvent e commitId eventId false)).run item₁ = .ok () item' := by
  unfold collect at hrun
  rw [if_neg (by simp [he.kind]), run_bind_eq_ok] at hrun
  obtain ⟨_, item₁, hdeclare, hrun⟩ := hrun
  obtain ⟨hredesc, hbinds⟩ := declareFields_ok (consistent_descriptors he) _
    (fun p hp => fieldConsistent_fromEvent he hp) hc.descriptors hc.nativeColumns hdeclare
  have hn := Neutral.of_redescribes hredesc hc
  have hn' := hn.trans (neutral_countEvent hn.configured)
  simp only [EStateM.run_bind, EStateM.run_modify] at hrun
  split_ifs at hrun with hmarker
  · cases hrun
  · have hkeyless : item₁.countEvent.keyless = false := hn'.configured.keyless
    simp only [EStateM.run_bind, EStateM.run_get, hkeyless, Bool.false_eq_true, if_false] at hrun
    exact ⟨_, hn', hbinds, hrun⟩

/-- **The simulation relation of whole fold states.** -/
structure Simulates (layout : Layout C) (D : Multiset (Row C V)) (item : TableWork C V)
    (S : Multiset (Row C V)) : Prop where
  represents : layout.Represents D item S
  configured : layout.Configured item.config
  fits : ∀ r ∈ S, layout.Fits r
  unidentified : item.identified = false → item.live.items = []
  declared : item.identified = true →
    ∀ c ∈ layout.keyColumns, (item.nativeColumns.get? c).isSome
  /-- The first row of a table that held none is inserted whole. -/
  whole : item.identified = true → D = 0 →
    ∀ c ∈ layout.columns, (item.nativeColumns.get? c).isSome

/-- The item has met a record of its table. -/
def Started (item : TableWork C V) : Prop := item.identified = true ∨ item.truncated = true

/-- Attribution, where the record of an operation needs it and it answers, finds the row. -/
def FindsRow (layout : Layout C) (probe : Probe C V) (D S : Multiset (Row C V))
    (e : PendingRecord C V) : SourceEvent C V → Prop
  | .update old _ => layout.Finds probe D S old e.beforeImage .update
  | .delete old => layout.Finds probe D S old e.beforeImage .delete
  | _ => True

omit [DecidableEq V] [ColumnValue V] [DecidableEq C] [ToString C] in
theorem observe_ok {deleteMode : Option DeleteMode}
    (h : (observe e deleteMode).run item = .ok () item') :
    item' = (item.recordSource e).identify e := by
  unfold observe at h
  simp only [EStateM.run_bind, EStateM.run_get] at h
  split_ifs at h
  · cases h
  · cases h
    rfl

omit [DecidableEq C] [DecidableEq V] [ColumnValue V] [ToString C] in
@[simp] theorem config_recordSource (item : TableWork C V) (e : PendingRecord C V) :
    (item.recordSource e).config = item.config := by
  unfold TableWork.recordSource
  split_ifs <;> rfl

omit [DecidableEq C] [DecidableEq V] [ColumnValue V] [ToString C] in
@[simp] theorem multi_recordSource (item : TableWork C V) (e : PendingRecord C V) :
    (item.recordSource e).multi = item.multi := by
  unfold TableWork.recordSource
  split_ifs <;> rfl

omit [DecidableEq C] [DecidableEq V] [ColumnValue V] [ToString C] in
/-- A truncate does not establish an identity. -/
theorem identify_of_truncate (hkind : e.kind = .truncate) : item.identify e = item := by
  simp [TableWork.identify, hkind]

omit [ColumnValue V] [ToString C] in
theorem Represents.recordSource (h : layout.Represents D item S) (e : PendingRecord C V) :
    layout.Represents D (item.recordSource e) S := by
  unfold TableWork.recordSource
  split_ifs
  · exact h.congr rfl rfl rfl rfl
  · exact h

omit [ToString C] [ColumnValue V] in
/-- `work_for` on a row event: the identity is the table's, the rows are untouched. -/
theorem observed_row {r : Row C V} (h : layout.Simulates D item S)
    (he : layout.RowEvent op r e) :
    layout.Represents D ((item.recordSource e).identify e) S ∧
      layout.Configured ((item.recordSource e).identify e).config ∧
      ((item.recordSource e).identify e).identified = true ∧
      ((item.recordSource e).identify e).keyColumns = layout.keyColumns ∧
      ((item.recordSource e).identify e).multi = item.multi ∧
      ((item.recordSource e).identify e).nativeColumns = item.nativeColumns := by
  obtain ⟨k, hk, hcols, -⟩ := he.key
  have hc : layout.Configured (item.recordSource e).config :=
    (config_recordSource item e).symm ▸ h.configured
  have hrep := h.represents.recordSource e
  have hmulti := multi_recordSource item e
  have hnative : (item.recordSource e).nativeColumns = item.nativeColumns :=
    congrArg FoldConfig.nativeColumns (config_recordSource item e)
  unfold TableWork.identify
  split_ifs with hid
  · refine ⟨hrep.congr rfl rfl rfl rfl, ?_, rfl, ?_, hmulti, hnative⟩
    · exact ⟨hc.snapshot, hc.incremental, by simp [TableWork.config, hk], hc.deleteMode,
        hc.previousDeleteMode, fun _ => by simpa [TableWork.config, hk] using hcols,
        hc.descriptors, hc.nativeColumns, hc.softDeletes⟩
    · simpa [hk] using hcols
  · have hid' : (item.recordSource e).identified = true := by
      simpa [he.kind] using hid
    exact ⟨hrep, hc, hid', hc.keyColumns hid', hmulti, hnative⟩

/-- The keyed fold of an event, given that attribution finds the row. -/
theorem collectKeyed_ok (hA : layout.Answers probe D) {S' : Multiset (Row C V)}
    {event : SourceEvent C V} {commitId : ℕ} (h : layout.Represents D item S)
    (hfits : ∀ r ∈ S, layout.Fits r) (hc : layout.Configured item.config)
    (hkeys : item.keyColumns = layout.keyColumns) (hstep : layout.Step S event S')
    (hrender : layout.Renders event e) (hrow : e.kind ≠ .truncate)
    (hfind : layout.FindsRow probe D S e event)
    (hrun : (collectKeyed probe e eventId (RowPatch.fromEvent e commitId eventId false)).run item =
      .ok () item') :
    layout.Advances D item item' S' := by
  unfold collectKeyed at hrun
  rw [run_bind_eq_ok] at hrun
  obtain ⟨key, item₁, hkeyrun, hrun⟩ := hrun
  cases hrender with
  | truncate ht _ => exact absurd ht hrow
  | @insert r _ he hafter =>
    cases hstep with
    | insert hr =>
      obtain ⟨rfl, hredesc, hsome⟩ := collectKey_ok he hc hkeys hkeyrun
      have hn := Neutral.of_redescribes hredesc hc
      have hn' := hn.trans (neutral_addCdcKey hn.configured (layout.token r))
      obtain ⟨hcomplete, happly⟩ :=
        apply_fromEvent_insert commitId eventId hr he hafter
      simp only [he.incremental, he.op, Bool.false_eq_true, if_false, EStateM.run_bind,
        EStateM.run_modify, Option.some.injEq, reduceCtorEq] at hrun
      cases hrun
      exact (place_leads (hn'.represents h) hcomplete happly).advances hn'
        fun c hcol => (hsome c hcol).2
  | @update old new _ he hbefore hafter =>
    cases hstep with
    | @update T _ _ hnew hkey =>
      obtain ⟨rfl, hredesc, hsome⟩ := collectKey_ok he hc hkeys hkeyrun
      have hn := Neutral.of_redescribes hredesc hc
      have hn' := hn.trans (neutral_addCdcKey hn.configured (layout.token new))
      have htoken : layout.token new = layout.token old := layout.token_eq_iff.2 hkey
      obtain ⟨hsparse, happly⟩ := apply_fromEvent_update commitId
        eventId (hfits old (Multiset.mem_cons_self _ _)) hnew he hafter
      simp only [he.incremental, he.op, Bool.false_eq_true, if_false, EStateM.run_bind,
        EStateM.run_modify, Option.some.injEq, reduceCtorEq, if_true] at hrun
      have hadv := collectUpdate_ok hA he (hn'.represents h) hn'.configured
        (hn'.keyColumns.trans hkeys) hbefore.2 hfind hsparse happly htoken
        (fun c hcol => (hsome c hcol).2) hrun
      exact ⟨hadv.represents, hadv.configured, hadv.identified.trans hn'.identified,
        hadv.keyColumns.trans hn'.keyColumns, hn'.tracked hadv.tracked, hadv.declared,
        fun c hcol => hadv.keepsNative c (hn'.keepsNative c hcol)⟩
  | @delete old _ he hbefore hshow =>
    cases hstep with
    | delete =>
      obtain ⟨rfl, hredesc, hsome⟩ := collectKey_ok he hc hkeys hkeyrun
      have hn := Neutral.of_redescribes hredesc hc
      have hn' := hn.trans (neutral_addCdcKey hn.configured (layout.token old))
      simp only [he.incremental, he.op, Bool.false_eq_true, if_false, EStateM.run_bind,
        EStateM.run_modify, if_true] at hrun
      have hadv := collectDelete_ok hA he (hn'.represents h) hn'.configured
        (hn'.keyColumns.trans hkeys) hshow hfind (fun c hcol => (hsome c hcol).2) hrun
      exact ⟨hadv.represents, hadv.configured, hadv.identified.trans hn'.identified,
        hadv.keyColumns.trans hn'.keyColumns, hn'.tracked hadv.tracked, hadv.declared,
        fun c hcol => hadv.keepsNative c (hn'.keepsNative c hcol)⟩

omit [DecidableEq V] [ColumnValue V] [ToString C] [DecidableEq C] in
theorem Step.fits {S' : Multiset (Row C V)} {event : SourceEvent C V}
    (h : layout.Step S event S') (hS : ∀ r ∈ S, layout.Fits r) : ∀ r ∈ S', layout.Fits r := by
  intro r hr
  cases h with
  | insert hnew =>
    rcases Multiset.mem_cons.1 hr with rfl | hr
    · exact hnew
    · exact hS r hr
  | update hnew _ =>
    rcases Multiset.mem_cons.1 hr with rfl | hr
    · exact hnew
    · exact hS r (Multiset.mem_cons_of_mem hr)
  | delete => exact hS r (Multiset.mem_cons_of_mem hr)
  | truncate => exact absurd hr (Multiset.notMem_zero r)

omit [ColumnValue V] [ToString C] in
/-- A fold that has seen no key of a table that held no rows stands for no rows. -/
theorem Represents.eq_zero (h : layout.Represents 0 item S) (hlive : item.live.items = []) :
    S = 0 := by
  refine Multiset.eq_zero_of_forall_notMem fun r hr => ?_
  have hnone : item.live.get? (layout.token r) = none := by
    cases hget : item.live.get? (layout.token r) with
    | none => rfl
    | some es =>
      have hmem := Dict.get?_eq_some_iff.1 hget
      rw [hlive] at hmem
      cases hmem
  have hat : layout.rowsAt S (layout.token r) = 0 := by
    rw [h.unseen _ hnone]
    split_ifs <;> rfl
  have hmem : r ∈ layout.rowsAt S (layout.token r) := mem_rowsAt.2 ⟨hr, rfl⟩
  rw [hat] at hmem
  exact Multiset.notMem_zero r hmem

omit [DecidableEq V] [ToString C] in
/-- The image of an insert binds every column. -/
theorem binds_insert {r : Row C V} (he : layout.RowEvent .create r e)
    (hafter : layout.ShowsAll e.after e.typedAfter r) (commitId : ℕ) (eventId : String) {c : C}
    (hc : c ∈ layout.columns) :
    ∃ f, (c, f) ∈ (RowPatch.fromEvent e commitId eventId false).fields.items ∧
      f.state.bound?.isSome := by
  have hfields : (RowPatch.fromEvent e commitId eventId false).fields =
      (RowPatch.fromImage e.after e.afterDescriptors e.typedAfter true).fields := by
    simp [RowPatch.fromEvent, he.op]
  refine ⟨_, Dict.get?_eq_some_iff.1 (by rw [hfields, RowPatch.get?_fields_fromImage,
    (hafter c hc).1]), ?_⟩
  rw [state_imageField_of_shows he.after (hafter c hc), FieldState.bound?_of]
  rfl

/-- **One record.** A record that does not raise keeps the fold standing for the source, given that
attribution finds the row. -/
theorem foldEvent_ok (hA : layout.Answers probe D) {S' : Multiset (Row C V)}
    {event : SourceEvent C V} {commitId : ℕ} (h : layout.Simulates D item S)
    (hstep : layout.Step S event S') (hrender : layout.Renders event e)
    (hfind : layout.FindsRow probe D S e event)
    (hrun : (foldEvent probe commitId (e, eventId)).run item = .ok () item') :
    layout.Simulates D item' S' ∧ Tracked item item' ∧ Started item' := by
  unfold foldEvent at hrun
  rw [run_bind_eq_ok] at hrun
  obtain ⟨_, item₁, hobs, hrun⟩ := hrun
  obtain rfl := observe_ok hobs
  dsimp only at hrun
  split_ifs at hrun with hkind
  · cases hrun
    obtain rfl := hrender.eq_truncate hkind
    cases hstep with
    | truncate =>
      have hconf : ((item.recordSource e).identify e).config = item.config := by
        rw [identify_of_truncate hkind, config_recordSource]
      have hnative : ((item.recordSource e).identify e).truncate.nativeColumns =
          item.nativeColumns := congrArg FoldConfig.nativeColumns hconf
      have hident : ((item.recordSource e).identify e).truncate.identified =
          item.identified := congrArg FoldConfig.identified hconf
      refine ⟨⟨Represents.truncate, ?_, by simp, fun _ => rfl, ?_, ?_⟩, ?_, Or.inr rfl⟩
      · rw [config_truncate, hconf]
        exact h.configured
      · rw [hnative, hident]
        exact h.declared
      · rw [hnative, hident]
        exact h.whole
      · intro k hk
        simp [TableWork.truncate] at hk
  · obtain ⟨r, op, he⟩ : ∃ r op, layout.RowEvent op r e := by
      cases hrender with
      | insert he _ => exact ⟨_, _, he⟩
      | update he _ _ => exact ⟨_, _, he⟩
      | delete he _ _ => exact ⟨_, _, he⟩
      | truncate ht _ => exact absurd ht hkind
    obtain ⟨hrep, hc, hid, hkeys, hmulti, hnative⟩ := observed_row h he
    simp only [EStateM.run_bind, EStateM.run_get] at hrun
    rw [show ((item.recordSource e).identify e).snapshot = false from hc.snapshot] at hrun
    obtain ⟨item₂, hn, hbinds, hrun⟩ := collect_ok he hc hrun
    have hadv := collectKeyed_ok hA (hn.represents hrep) h.fits hn.configured
      (hn.keyColumns.trans hkeys) hstep hrender hkind hfind hrun
    have hid' : item'.identified = true := hadv.identified.trans (hn.identified.trans hid)
    refine ⟨⟨hadv.represents, hadv.configured, hstep.fits h.fits, fun hf => ?_,
      fun _ => hadv.declared, fun _ hD c hcol => hadv.keepsNative c ?_⟩, fun k hk => ?_,
      Or.inl hid'⟩
    · rw [hid'] at hf
      cases hf
    · by_cases hold : item.identified = true
      · refine hn.keepsNative c ?_
        rw [hnative]
        exact h.whole hold hD c hcol
      · have hrep₀ := h.represents
        rw [hD] at hrep₀
        have hzero : S = 0 := hrep₀.eq_zero (h.unidentified (by simpa using hold))
        subst hzero
        obtain ⟨r, rfl⟩ : ∃ r, event = .insert r := by
          generalize hempty : (0 : Multiset (Row C V)) = S₀ at hstep
          cases hstep with
          | insert _ => exact ⟨_, rfl⟩
          | update _ _ => exact absurd hempty.symm (Multiset.cons_ne_zero)
          | delete => exact absurd hempty.symm (Multiset.cons_ne_zero)
          | truncate =>
            cases hrender with
            | truncate ht _ => exact absurd ht hkind
        cases hrender with
        | insert he hafter =>
          obtain ⟨f, hf, hbound⟩ := binds_insert he hafter commitId eventId hcol
          exact hbinds (c, f) hf hbound
    · have := hadv.tracked k hk
      rwa [hn.multi, hmulti] at this

/-! ### Transactions -/

/-- Every record of a transaction that does not raise keeps the fold standing for the source, when
updates and deletes carry full before-images. -/
theorem foldTransaction_full (hA : layout.Answers probe D) (hD : layout.KeysDistinct D)
    (hDfits : ∀ r ∈ D, layout.Fits r) (hnonkey : ∃ c ∈ layout.columns, c ∉ layout.keyColumns)
    {S' : Multiset (Row C V)} {events : List (SourceEvent C V)}
    {records : List (PendingRecord C V × String)} {commitId : ℕ}
    (h : layout.Simulates D item S) (htxn : layout.Transaction S events S')
    (hrender : List.Forall₂
      (fun event record => layout.Renders event record.1 ∧ layout.FullBefore event record.1)
      events records)
    (hrun : (foldTransaction probe commitId records).run item = .ok () item') :
    layout.Simulates D item' S' := by
  unfold foldTransaction at hrun
  rw [run_bind_eq_ok] at hrun
  obtain ⟨_, item₁, hfold, hend⟩ := hrun
  have hsame : item' = item₁ := by
    unfold endTransaction at hend
    simp only [EStateM.run_bind, EStateM.run_get] at hend
    split_ifs at hend
    · cases hend
    · cases hend
      rfl
  rw [hsame]
  refine Trace.simulate (layout.Simulates D) ?_ htxn.1 hrender h hfold
  intro item S event S' record item₁ hsim hstep ⟨hrend, hfull⟩ hrun
  refine (foldEvent_ok hA hsim hstep hrend ?_ hrun).1
  cases event with
  | insert r => trivial
  | truncate => trivial
  | update old new =>
    cases hrend with
    | update he _ _ =>
      cases hstep with
      | update _ _ =>
        intro item₂ hrep hc hkeys hs index item₃ htarget
        exact targetEntry_full record.1.beforeImage hA hD hDfits hrep hsim.fits hc hkeys hs
          (Multiset.mem_cons_self _ _) hnonkey he.before hfull htarget
  | delete old =>
    cases hrend with
    | delete he _ _ =>
      cases hstep with
      | delete =>
        intro item₂ hrep hc hkeys hs index item₃ htarget
        exact targetEntry_full record.1.beforeImage hA hD hDfits hrep hsim.fits hc hkeys hs
          (Multiset.mem_cons_self _ _) hnonkey he.before hfull htarget

end Layout

end CdcFlight
