import CdcFlight.Schema.Identity

/-!
# Names passed on

The script of `apply_column_changes` preserves identity exactly when no surviving column takes the
old name of another surviving column.

If none does, the phases of the script move each number to its new name. If one does, a rename
finds both of its names in use and merges two columns: in the first pass over the renames when the
giver of the name has the greater attribute number, else in the second pass, where the giver's
rename runs again on the column that took its name. A merge leaves one column too few.

## Main results

* `CdcFlight.preservesIdentity_of_noNamePassedOn`: no name passed on, identity preserved.
* `CdcFlight.exists_merge`: a name passed on makes a rename merge.
* `CdcFlight.preservesIdentity_iff`: both directions.
-/

namespace CdcFlight

open Lib

variable {C V : Type} [DecidableEq C] [DecidableEq V] [ToString C] {normalize : String → C}
  {before after : List SourceColumn} {types : Registered.TypeRules C} {s s' : Registered C V}
  {change : ColumnChange}

/-! ### No name passed on -/

section Preserved

variable (before) in
/-- The content of each number: what the table has under its old name, and nothing for a new
number. -/
def contentAt (normalize : String → C) (s : Registered C V) (k : ℕ) : List (Option V) :=
  if k ∈ before.map (·.attnum) then s.column (nameAt normalize before k)
  else List.replicate s.table.rows.length none

omit [DecidableEq C] [DecidableEq V] [ToString C] in
/-- The table before the change. -/
theorem located_before (hbefore : DistinctColumns normalize before)
    (hpresent : s.table.present = true)
    (hcolumns : s.table.columns.Perm (before.map fun b => normalize b.name)) :
    Registered.Located (contentAt before normalize s) (before.map (·.attnum))
      (nameAt normalize before) s where
  present := hpresent
  columns := hbefore.map_nameAt ▸ hcolumns
  nodup := hbefore.map_nameAt ▸ hbefore.names
  data k hk := by rw [contentAt, if_pos hk]

/-- The changes of a part of the diff have different numbers. -/
theorem nodup_attnums_filter (p : ColumnChange → Bool) :
    (((diffColumns before after).filter p).map (·.attnum)).Nodup :=
  (List.filter_sublist.map _).nodup (nodup_attnums_diffColumns before after)

variable (normalize before after) in
/-- The numbers the early drops leave. -/
def remaining : List ℕ :=
  (before.map (·.attnum)).filter fun k =>
    k ∉
      ((earlyDrops normalize (diffColumns before after)).filter (·.kind = .dropped)).map (·.attnum)

variable (normalize before after) in
/-- The numbers all drops leave. -/
def surviving : List ℕ :=
  (remaining normalize before after).filter fun k =>
    k ∉
      ((lateChanges normalize (diffColumns before after)).filter (·.kind = .dropped)).map (·.attnum)

omit [ToString C] in
theorem mem_remaining_iff {k : ℕ} : k ∈ remaining normalize before after ↔
    k ∈ before.map (·.attnum) ∧ (k ∈ after.map (·.attnum) ∨
      ∀ rename ∈ renamesOf (diffColumns before after),
        nameAt normalize after rename.attnum ≠ nameAt normalize before k) := by
  rw [remaining, List.mem_filter, decide_eq_true_iff]
  refine and_congr_right fun hb => ⟨fun hgone => ?_, fun hkeep hgone => ?_⟩
  · by_cases ha : k ∈ after.map (·.attnum)
    · exact Or.inl ha
    · refine Or.inr fun rename hrename heq => hgone ?_
      obtain ⟨change, hin, hkind, rfl⟩ := mem_dropped_iff.2 ⟨hb, ha⟩
      obtain ⟨hrin, hrkind⟩ := mem_renamesOf_iff.1 hrename
      refine List.mem_map_of_mem (List.mem_filter.2 ⟨mem_earlyDrops_iff.2
        ⟨hin, hkind, rename, hrename, ?_⟩, by simpa using hkind⟩)
      rw [(renamed_names normalize hrin hrkind).2.2.2, (dropped_names hin hkind).2.2, heq]
  · obtain ⟨change, hchange, rfl⟩ := List.mem_map.1 hgone
    obtain ⟨hin, hkind, rename, hrename, hname⟩ :=
      mem_earlyDrops_iff.1 (List.mem_filter.1 hchange).1
    rcases hkeep with ha | hkeep
    · exact (mem_dropped_iff.1 ⟨change, hin, hkind, rfl⟩).2 ha
    · obtain ⟨hrin, hrkind⟩ := mem_renamesOf_iff.1 hrename
      rw [(renamed_names normalize hrin hrkind).2.2.2, (dropped_names hin hkind).2.2] at hname
      exact hkeep rename hrename (Option.some.inj hname)

omit [ToString C] in
theorem mem_surviving_iff {k : ℕ} : k ∈ surviving normalize before after ↔
    k ∈ before.map (·.attnum) ∧ k ∈ after.map (·.attnum) := by
  rw [surviving, List.mem_filter, decide_eq_true_iff]
  constructor
  · rintro ⟨hrem, hlate⟩
    have hb : k ∈ before.map (·.attnum) := (mem_remaining_iff.1 hrem).1
    refine ⟨hb, ?_⟩
    by_contra ha
    obtain ⟨change, hin, hkind, rfl⟩ := mem_dropped_iff.2 ⟨hb, ha⟩
    refine hlate (List.mem_map_of_mem (List.mem_filter.2 ⟨mem_lateChanges_iff.2 ⟨hin, ?_⟩, by
      simpa using hkind⟩))
    rw [remaining, List.mem_filter, decide_eq_true_iff] at hrem
    exact fun hearly => hrem.2
      (List.mem_map_of_mem (List.mem_filter.2 ⟨hearly, by simpa using hkind⟩))
  · rintro ⟨hb, ha⟩
    refine ⟨mem_remaining_iff.2 ⟨hb, Or.inl ha⟩, fun hlate => ?_⟩
    obtain ⟨change, hchange, rfl⟩ := List.mem_map.1 hlate
    obtain ⟨hchange, hkind⟩ := List.mem_filter.1 hchange
    exact (mem_dropped_iff.1
      ⟨change, (mem_lateChanges_iff.1 hchange).1, by simpa using hkind, rfl⟩).2 ha

/-- The early drops. -/
theorem located_early (hbefore : DistinctColumns normalize before)
    (hpresent : s.table.present = true)
    (hcolumns : s.table.columns.Perm (before.map fun b => normalize b.name))
    (hrun : (earlyDrops normalize (diffColumns before after)).foldlM (applyMove normalize types) s =
      .ok s') :
    Registered.Located (contentAt before normalize s) (remaining normalize before after)
      (nameAt normalize before) s' := by
  refine (located_before hbefore hpresent hcolumns).settle _ (nodup_attnums_filter _)
    (fun change hchange hkind => ?_) (fun change hchange _ => ?_) hrun
  · simp [(mem_earlyDrops_iff.1 hchange).2.1] at hkind
  · obtain ⟨hin, hkind, -⟩ := mem_earlyDrops_iff.1 hchange
    exact ⟨(mem_dropped_iff.1 ⟨change, hin, hkind, rfl⟩).1, (dropped_names hin hkind).2.2⟩

variable {content : ℕ → List (Option V)}

/-- The renames move every surviving number to its new name. -/
theorem located_renamed (hafter : DistinctColumns normalize after)
    (hnone : ∀ i j, i ∈ before.map (·.attnum) → i ∈ after.map (·.attnum) →
      j ∈ before.map (·.attnum) → j ∈ after.map (·.attnum) → i ≠ j →
      nameAt normalize after i ≠ nameAt normalize before j)
    (h : Registered.Located content (remaining normalize before after) (nameAt normalize before) s)
    (hrun : (renamesOf (diffColumns before after)).foldlM (applyMove normalize types) s = .ok s') :
    Registered.Located content (remaining normalize before after) (fun k =>
      if k ∈ (renamesOf (diffColumns before after)).map (·.attnum) then nameAt normalize after k
      else nameAt normalize before k) s' := by
  have hmem : ∀ change ∈ renamesOf (diffColumns before after),
      change.attnum ∈ before.map (·.attnum) ∧ change.attnum ∈ after.map (·.attnum) := by
    intro change hchange
    obtain ⟨hin, hkind⟩ := mem_renamesOf_iff.1 hchange
    have hnames := renamed_names normalize hin hkind
    exact ⟨hnames.1, hnames.2.1⟩
  refine h.renames _ (nodup_attnums_filter _) (fun change hchange => ?_)
    (fun change hchange k hk hne => ?_) (fun change hchange change' hchange' hne heq => ?_) hrun
  · obtain ⟨hin, hkind⟩ := mem_renamesOf_iff.1 hchange
    obtain ⟨hb, ha, hold, hnew⟩ := renamed_names normalize hin hkind
    exact ⟨hkind, mem_remaining_iff.2 ⟨hb, Or.inl ha⟩, hold, hnew⟩
  · obtain ⟨hb, ha | hfree⟩ := mem_remaining_iff.1 hk
    · exact hnone _ _ (hmem change hchange).1 (hmem change hchange).2 hb ha hne.symm
    · exact hfree change hchange
  · exact hne (hafter.nameAt_inj (hmem change hchange).2 (hmem change' hchange').2 heq).symm

/-- The late drops; the renames find nothing to do. -/
theorem located_settled (hbefore : DistinctColumns normalize before)
    (hnone : ∀ i j, i ∈ before.map (·.attnum) → i ∈ after.map (·.attnum) →
      j ∈ before.map (·.attnum) → j ∈ after.map (·.attnum) → i ≠ j →
      nameAt normalize after i ≠ nameAt normalize before j)
    (h : Registered.Located content (remaining normalize before after) (fun k =>
      if k ∈ (renamesOf (diffColumns before after)).map (·.attnum) then nameAt normalize after k
      else nameAt normalize before k) s)
    (hrun :
      (lateChanges normalize (diffColumns before after)).foldlM (applyMove normalize types) s =
      .ok s') :
    Registered.Located content (surviving normalize before after) (nameAt normalize after) s' := by
  have hsettled := h.settle _ (nodup_attnums_filter _)
    (fun change hchange hkind old new hold hnew => ?_)
    (fun change hchange hkind => ?_) hrun
  · refine hsettled.congr_loc fun k hk => ?_
    obtain ⟨hb, ha⟩ := mem_surviving_iff.1 hk
    split_ifs with hrenamed
    · rfl
    · by_contra hne
      obtain ⟨change, hchange, rfl⟩ := mem_renamesOf_of_ne hb ha hne
      exact hrenamed (List.mem_map_of_mem hchange)
  · have hin : change ∈ diffColumns before after := (mem_lateChanges_iff.1 hchange).1
    obtain ⟨hb, ha, hold', hnew'⟩ := renamed_names normalize hin hkind
    rw [hold, Option.some.injEq] at hold'
    rw [hnew, Option.some.injEq] at hnew'
    subst hold' hnew'
    by_cases hsame : nameAt normalize before change.attnum = nameAt normalize after change.attnum
    · exact Or.inl hsame
    · refine Or.inr fun k hk => ?_
      split_ifs with hrenamed
      · obtain ⟨rename, hrename, rfl⟩ := List.mem_map.1 hrenamed
        obtain ⟨hrin, hrkind⟩ := mem_renamesOf_iff.1 hrename
        have hnames := renamed_names normalize hrin hrkind
        by_cases hk : rename.attnum = change.attnum
        · rw [hk]
          exact Ne.symm hsame
        · exact hnone _ _ hnames.1 hnames.2.1 hb ha hk
      · intro heq
        rw [hbefore.nameAt_inj (mem_remaining_iff.1 hk).1 hb heq] at hrenamed
        exact hrenamed (List.mem_map_of_mem (mem_renamesOf_iff.2 ⟨hin, hkind⟩))
  · obtain ⟨hin, hlate⟩ := mem_lateChanges_iff.1 hchange
    obtain ⟨hb, ha⟩ := mem_dropped_iff.1 ⟨change, hin, hkind, rfl⟩
    have hnotrenamed : change.attnum ∉ (renamesOf (diffColumns before after)).map (·.attnum) := by
      intro hrenamed
      obtain ⟨rename, hrename, heq⟩ := List.mem_map.1 hrenamed
      obtain ⟨hrin, hrkind⟩ := mem_renamesOf_iff.1 hrename
      exact ha (heq ▸ (renamed_names normalize hrin hrkind).2.1)
    rw [if_neg hnotrenamed]
    refine ⟨List.mem_filter.2 ⟨hb, decide_eq_true fun hgone => ?_⟩, (dropped_names hin hkind).2.2⟩
    obtain ⟨change', hchange', heq⟩ := List.mem_map.1 hgone
    have hearly := (List.mem_filter.1 hchange').1
    rw [List.inj_on_of_nodup_map (nodup_attnums_diffColumns before after)
      (mem_earlyDrops_iff.1 hearly).1 hin heq] at hearly
    exact hlate hearly

/-- **Identity is preserved when no name is passed on.** -/
theorem preservesIdentity_of_noNamePassedOn (hbefore : DistinctColumns normalize before)
    (hafter : DistinctColumns normalize after) (hpresent : s.table.present = true)
    (hcolumns : s.table.columns.Perm (before.map fun b => normalize b.name))
    (hnone : NoNamePassedOn normalize before after)
    (hrun : applyColumnChanges normalize types s (diffColumns before after) = .ok s') :
    PreservesIdentity normalize before after s s' := by
  rw [noNamePassedOn_iff hbefore hafter] at hnone
  rw [applyColumnChanges] at hrun
  obtain ⟨moved, hmoves, hshapes⟩ := except_bind_eq_ok.1 hrun
  have hlength : moved.table.rows.length = s.table.rows.length :=
    Registered.length_rows_moves _ hmoves
  rw [List.foldlM_append, List.foldlM_append] at hmoves
  obtain ⟨renamed, hmoves, hlate⟩ := except_bind_eq_ok.1 hmoves
  obtain ⟨dropped, hearly, hrenames⟩ := except_bind_eq_ok.1 hmoves
  have hmoved : Registered.Located (contentAt before normalize s) (surviving normalize before after)
      (nameAt normalize after) moved :=
    located_settled hbefore hnone (located_renamed hafter hnone
      (located_early hbefore hpresent hcolumns hearly) hrenames) hlate
  have hadded : ∀ change ∈ diffColumns before after, change.kind = .added →
      change.attnum ∉ before.map (·.attnum) ∧ change.attnum ∈ after.map (·.attnum) :=
    fun change hin hkind => mem_added_iff.1 ⟨change, hin, hkind, rfl⟩
  have hfinal := hmoved.adds _ hlength (nodup_attnums_diffColumns before after)
    (fun change hin hkind =>
      ⟨fun hlive => (hadded change hin hkind).1 (mem_surviving_iff.1 hlive).1,
      by rw [contentAt, if_neg (hadded change hin hkind).1], (added_names hin hkind).2.2⟩)
    (fun change hin hkind k hk heq => (hadded change hin hkind).1
      (hafter.nameAt_inj (mem_surviving_iff.1 hk).2 (hadded change hin hkind).2 heq ▸
        (mem_surviving_iff.1 hk).1))
    (fun change hin hkind change' hin' hkind' hne heq => hne
      (hafter.nameAt_inj (hadded change' hin' hkind').2 (hadded change hin hkind).2 heq)) hshapes
  -- The live numbers are the ones of the new catalog.
  set live := surviving normalize before after ++
    ((diffColumns before after).filter (·.kind = .added)).map (·.attnum) with hlive
  have hmem : ∀ k, k ∈ live ↔ k ∈ after.map (·.attnum) := by
    intro k
    rw [hlive, List.mem_append, mem_surviving_iff]
    constructor
    · rintro (⟨-, ha⟩ | hk)
      · exact ha
      · obtain ⟨change, hchange, rfl⟩ := List.mem_map.1 hk
        obtain ⟨hin, hkind⟩ := List.mem_filter.1 hchange
        exact (hadded change hin (by simpa using hkind)).2
    · intro ha
      by_cases hb : k ∈ before.map (·.attnum)
      · exact Or.inl ⟨hb, ha⟩
      · obtain ⟨change, hin, hkind, rfl⟩ := mem_added_iff.2 ⟨hb, ha⟩
        exact Or.inr (List.mem_map_of_mem (List.mem_filter.2 ⟨hin, by simpa using hkind⟩))
  have hperm : live.Perm (after.map (·.attnum)) :=
    (List.perm_ext_iff_of_nodup hfinal.nodup.of_map hafter.attnums).2 hmem
  have hdata :
      ∀ a ∈ after, s'.column (normalize a.name) = contentAt before normalize s a.attnum := by
    intro a ha
    rw [← hafter.nameAt_of_mem ha]
    exact hfinal.data _ ((hmem _).2 (List.mem_map_of_mem ha))
  refine ⟨?_, fun b hb a ha heq => ?_, fun a ha hnew value hvalue => ?_⟩
  · rw [← hafter.map_nameAt]
    exact hfinal.columns.trans (hperm.map _)
  · rw [hdata a ha, contentAt, ← heq, if_pos (List.mem_map_of_mem hb),
      hbefore.nameAt_of_mem hb]
  · rw [hdata a ha, contentAt, if_neg hnew] at hvalue
    exact List.eq_of_mem_replicate hvalue

end Preserved

/-! ### Names and columns along the script -/

namespace Registered

omit [ToString C] [DecidableEq V] in
private theorem columns_clearPresence (s : Registered C V) (c : C) :
    (s.clearPresence c).table.columns = s.table.columns := by
  rw [clearPresence]
  split_ifs <;> rfl

omit [ToString C] [DecidableEq V] in
private theorem present_clearPresence (s : Registered C V) (c : C) :
    (s.clearPresence c).table.present = s.table.present := by
  rw [clearPresence]
  split_ifs <;> rfl

omit [ToString C] [DecidableEq V] in
/-- The columns a merge leaves. -/
theorem columns_merge (s : Registered C V) (old new : C) :
    ((((s.mergeColumns old new).alterDrop old).clearPresence new).renameKeys
      old new).table.columns =
      s.table.columns.filter (· ≠ old) := by
  rw [renameKeys, columns_clearPresence]
  rfl

/-- A change of the first loop does not drop or create the table. -/
theorem present_move (h : applyMove normalize types s change = .ok s') :
    s'.table.present = s.table.present := by
  rcases applyMove_cases h with ⟨old, new, -, -, -, h⟩ | ⟨old, -, -, h⟩ | ⟨rfl, -⟩
  · rcases renameColumn_cases h with ⟨-, rfl⟩ | ⟨-, -, -, rfl⟩ | ⟨-, -, -, rfl⟩ | ⟨-, rfl⟩
    · rfl
    · rfl
    · rw [renameKeys, present_clearPresence]
      rfl
    · rfl
  · rw [dropColumn] at h
    split_ifs at h <;> rw [← Except.ok.inj h]
    rfl
  · rfl

/-- Only a rename or a drop of a name takes it away. -/
theorem mem_columns_move (h : applyMove normalize types s change = .ok s') {c : C}
    (hc : c ∈ s.table.columns) (hother : change.kind = .renamed ∨ change.kind = .dropped →
      change.destinationOldName normalize ≠ some c) : c ∈ s'.table.columns := by
  rcases applyMove_cases h with ⟨old, new, hkind, hold, -, h⟩ | ⟨old, hkind, hold, h⟩ | ⟨rfl, -⟩
  · have hne : c ≠ old := fun heq => hother (Or.inl hkind) (heq ▸ hold)
    rcases renameColumn_cases h with ⟨-, rfl⟩ | ⟨-, -, -, rfl⟩ | ⟨-, -, -, rfl⟩ | ⟨-, rfl⟩
    · exact hc
    · exact List.mem_map.2 ⟨c, hc, if_neg hne⟩
    · rw [columns_merge]
      exact List.mem_filter.2 ⟨hc, by simpa using hne⟩
    · exact hc
  · have hne : c ≠ old := fun heq => hother (Or.inr hkind) (heq ▸ hold)
    rw [dropColumn] at h
    split_ifs at h <;> rw [← Except.ok.inj h]
    · exact hc
    · exact List.mem_filter.2 ⟨hc, by simpa using hne⟩
  · exact hc

/-- A rename of a column that is there makes the new name a column. -/
theorem mem_columns_renamed (h : applyMove normalize types s change = .ok s')
    (hpresent : s.table.present = true) (hkind : change.kind = .renamed) {old new : C}
    (hold : change.destinationOldName normalize = some old)
    (hnew : change.destinationNewName normalize = some new) (hin : old ∈ s.table.columns) :
    new ∈ s'.table.columns := by
  rcases renameColumn_cases (renameColumn_of_move h hkind hold hnew) with
    ⟨rfl | hpresent', rfl⟩ | ⟨-, -, -, rfl⟩ | ⟨hne, -, hin', rfl⟩ | ⟨hout, -⟩
  · exact hin
  · simp [hpresent] at hpresent'
  · exact List.mem_map.2 ⟨old, hin, if_pos rfl⟩
  · rw [columns_merge]
    exact List.mem_filter.2 ⟨hin', by simpa using hne.symm⟩
  · exact absurd hin hout

/-- No change of the first loop makes more columns. -/
theorem length_columns_move (h : applyMove normalize types s change = .ok s') :
    s'.table.columns.length ≤ s.table.columns.length := by
  rcases applyMove_cases h with ⟨old, new, -, -, -, h⟩ | ⟨old, -, -, h⟩ | ⟨rfl, -⟩
  · rcases renameColumn_cases h with ⟨-, rfl⟩ | ⟨-, -, -, rfl⟩ | ⟨-, -, -, rfl⟩ | ⟨-, rfl⟩
    · exact le_rfl
    · simp [renameKeys, alterRename]
    · rw [columns_merge]
      exact List.length_filter_le _ _
    · exact le_rfl
  · rw [dropColumn] at h
    split_ifs at h <;> rw [← Except.ok.inj h]
    exact List.length_filter_le _ _
  · exact le_rfl

omit [DecidableEq V] [ToString C] in
private theorem length_filter_ne_lt {l : List C} {c : C} (h : c ∈ l) :
    (l.filter (· ≠ c)).length < l.length :=
  List.length_filter_lt_length_iff_exists.2 ⟨c, h, by simp⟩

/-- A drop of a column that is there makes one column less. -/
theorem length_columns_dropped (h : applyMove normalize types s change = .ok s')
    (hpresent : s.table.present = true) (hkind : change.kind = .dropped) {old : C}
    (hold : change.destinationOldName normalize = some old) (hin : old ∈ s.table.columns) :
    s'.table.columns.length < s.table.columns.length := by
  have hrun := dropColumn_of_move h hkind hold
  rw [dropColumn, if_neg (by simp [hpresent, hin])] at hrun
  split_ifs at hrun
  rw [← Except.ok.inj hrun]
  exact length_filter_ne_lt hin

/-- A merge makes one column less. -/
theorem length_columns_merged (h : applyMove normalize types s change = .ok s')
    (hpresent : s.table.present = true) (hkind : change.kind = .renamed) {old new : C}
    (hold : change.destinationOldName normalize = some old)
    (hnew : change.destinationNewName normalize = some new) (hne : old ≠ new)
    (hin : old ∈ s.table.columns) (hin' : new ∈ s.table.columns) :
    s'.table.columns.length < s.table.columns.length := by
  rcases renameColumn_cases (renameColumn_of_move h hkind hold hnew) with
    ⟨hsame | hpresent', -⟩ | ⟨-, -, hout, -⟩ | ⟨-, -, -, rfl⟩ | ⟨hout, -⟩
  · exact absurd hsame hne
  · simp [hpresent] at hpresent'
  · exact absurd hin' hout
  · rw [columns_merge]
    exact length_filter_ne_lt hin
  · exact absurd hin hout

/-- Changes of the first loop that come before a drop leave its column alone. -/
def DropsApart (normalize : String → C) (l : List ColumnChange) : Prop :=
  l.Pairwise fun change drop => drop.kind = .dropped →
    change.kind = .renamed ∨ change.kind = .dropped →
    change.destinationOldName normalize ≠ drop.destinationOldName normalize

/-- Every drop finds its column. -/
def DropsFind (normalize : String → C) (l : List ColumnChange) (s : Registered C V) : Prop :=
  ∀ drop ∈ l, drop.kind = .dropped →
    ∃ c ∈ s.table.columns, drop.destinationOldName normalize = some c

theorem present_moves (l : List ColumnChange) : ∀ {s : Registered C V},
    l.foldlM (applyMove normalize types) s = .ok s' → s'.table.present = s.table.present := by
  induction l with
  | nil =>
    intro s hrun
    cases hrun
    rfl
  | cons change l ih =>
    intro s hrun
    rw [List.foldlM_cons] at hrun
    obtain ⟨next, hmove, hrest⟩ := except_bind_eq_ok.1 hrun
    rw [ih hrest, present_move hmove]

theorem mem_columns_moves (l : List ColumnChange) {c : C} : ∀ {s : Registered C V},
    l.foldlM (applyMove normalize types) s = .ok s' → c ∈ s.table.columns →
    (∀ change ∈ l, change.kind = .renamed ∨ change.kind = .dropped →
      change.destinationOldName normalize ≠ some c) → c ∈ s'.table.columns := by
  induction l with
  | nil =>
    intro s hrun hc _
    cases hrun
    exact hc
  | cons change l ih =>
    intro s hrun hc hother
    rw [List.foldlM_cons] at hrun
    obtain ⟨next, hmove, hrest⟩ := except_bind_eq_ok.1 hrun
    exact ih hrest (mem_columns_move hmove hc (hother change List.mem_cons_self))
      fun c hc => hother c (List.mem_cons_of_mem _ hc)

/-- The drops of the rest of the script still find their columns after the first part. -/
theorem DropsFind.of_append {l m : List ColumnChange} {next : Registered C V}
    (h : DropsFind normalize (l ++ m) s) (hapart : DropsApart normalize (l ++ m))
    (hrun : l.foldlM (applyMove normalize types) s = .ok next) : DropsFind normalize m next := by
  intro drop hdrop hkind
  obtain ⟨c, hc, hname⟩ := h drop (List.mem_append_right _ hdrop) hkind
  refine ⟨c, mem_columns_moves _ hrun hc fun change hchange hmoves => ?_, hname⟩
  exact hname ▸ (List.pairwise_append.1 hapart).2.2 change hchange drop hdrop hkind hmoves

theorem DropsFind.of_cons {l : List ColumnChange} {next : Registered C V}
    (h : DropsFind normalize (change :: l) s) (hapart : DropsApart normalize (change :: l))
    (hmove : applyMove normalize types s change = .ok next) : DropsFind normalize l next := by
  have hrun : [change].foldlM (applyMove normalize types) s = .ok next := by
    rw [List.foldlM_cons, hmove]
    rfl
  exact DropsFind.of_append (l := [change]) h hapart hrun

/-- **Each drop costs a column.** -/
theorem length_columns_moves (l : List ColumnChange) : ∀ {s : Registered C V},
    l.foldlM (applyMove normalize types) s = .ok s' → s.table.present = true →
    DropsFind normalize l s → DropsApart normalize l →
    s'.table.columns.length + l.countP (·.kind = .dropped) ≤ s.table.columns.length := by
  induction l with
  | nil =>
    intro s hrun _ _ _
    cases hrun
    simp
  | cons change l ih =>
    intro s hrun hpresent hfind hapart
    rw [List.foldlM_cons] at hrun
    obtain ⟨next, hmove, hrest⟩ := except_bind_eq_ok.1 hrun
    have hnext : DropsFind normalize l next :=
      hfind.of_cons hapart hmove
    have htail := ih hrest ((present_move hmove).trans hpresent) hnext
      (List.pairwise_cons.1 hapart).2
    rw [List.countP_cons]
    by_cases hkind : change.kind = .dropped
    · obtain ⟨c, hc, hname⟩ := hfind change List.mem_cons_self hkind
      have hless := length_columns_dropped hmove hpresent hkind hname hc
      simp only [hkind, decide_true, if_true]
      omega
    · have hle := length_columns_move hmove
      simp only [hkind, decide_false, Bool.false_eq_true, if_false]
      omega

/-- **A merge costs a column more.** -/
theorem length_columns_moves_merge {l m : List ColumnChange} {rename : ColumnChange}
    {middle : Registered C V} (hfirst : l.foldlM (applyMove normalize types) s = .ok middle)
    (hrest : (rename :: m).foldlM (applyMove normalize types) middle = .ok s')
    (hpresent : s.table.present = true) (hfind : DropsFind normalize (l ++ rename :: m) s)
    (hapart : DropsApart normalize (l ++ rename :: m)) (hkind : rename.kind = .renamed)
    {old new : C}
    (hold : rename.destinationOldName normalize = some old)
    (hnew : rename.destinationNewName normalize = some new) (hne : old ≠ new)
    (hin : old ∈ middle.table.columns) (hin' : new ∈ middle.table.columns) :
    s'.table.columns.length + (l ++ rename :: m).countP (·.kind = .dropped) <
      s.table.columns.length := by
  have hmiddle : middle.table.present = true := (present_moves l hfirst).trans hpresent
  have hfind' : DropsFind normalize (rename :: m) middle := hfind.of_append hapart hfirst
  have hapart' : DropsApart normalize (rename :: m) := (List.pairwise_append.1 hapart).2.1
  have hl := length_columns_moves l hfirst hpresent
    (fun drop hdrop => hfind drop (List.mem_append_left _ hdrop)) (List.pairwise_append.1 hapart).1
  rw [List.foldlM_cons] at hrest
  obtain ⟨next, hmove, hrest⟩ := except_bind_eq_ok.1 hrest
  have hless := length_columns_merged hmove hmiddle hkind hold hnew hne hin hin'
  have hm := length_columns_moves m hrest ((present_move hmove).trans hmiddle)
    (hfind'.of_cons hapart' hmove)
    (List.pairwise_cons.1 hapart').2
  rw [List.countP_append, List.countP_cons]
  simp only [hkind, reduceCtorEq, decide_false, Bool.false_eq_true, if_false]
  omega

omit [DecidableEq V] in
/-- The second loop makes at most one column for each addition. -/
theorem length_columns_shapes (l : List ColumnChange) : ∀ {s : Registered C V},
    l.foldlM (applyShape normalize types) s = .ok s' →
    s'.table.columns.length ≤ s.table.columns.length + l.countP (·.kind = .added) := by
  induction l with
  | nil =>
    intro s hrun
    cases hrun
    simp
  | cons change l ih =>
    intro s hrun
    rw [List.foldlM_cons] at hrun
    obtain ⟨next, hshape, hrest⟩ := except_bind_eq_ok.1 hrun
    have htail := ih hrest
    rw [List.countP_cons]
    rw [applyShape.eq_def] at hshape
    split at hshape
    · next hkind _ _ =>
      have hnext : next.table.columns.length ≤ s.table.columns.length + 1 := by
        rw [addColumn] at hshape
        split_ifs at hshape
        · rw [Except.ok.inj hshape]
          omega
        · rw [← Except.ok.inj hshape]
          simp [alterAdd]
      simp only [hkind, decide_true, if_true]
      omega
    · rw [convertColumn_eq_ok hshape] at htail
      omega
    · rw [← Except.ok.inj hshape] at htail
      omega

end Registered

/-! ### A name passed on -/

section PassedOn

variable (normalize before after) in
/-- The first loop of the script. -/
def moves : List ColumnChange :=
  earlyDrops normalize (diffColumns before after) ++ renamesOf (diffColumns before after) ++
    lateChanges normalize (diffColumns before after)

omit [ToString C] in
theorem mem_diffColumns_of_mem_moves (h : change ∈ moves normalize before after) :
    change ∈ diffColumns before after := by
  rw [moves, List.mem_append, List.mem_append] at h
  rcases h with (h | h) | h
  · exact (mem_earlyDrops_iff.1 h).1
  · exact (mem_renamesOf_iff.1 h).1
  · exact (mem_lateChanges_iff.1 h).1

variable (normalize) in
omit [DecidableEq C] [ToString C] in
theorem oldName_of_mem (h : change ∈ diffColumns before after)
    (hkind : change.kind = .renamed ∨ change.kind = .dropped) :
    change.attnum ∈ before.map (·.attnum) ∧
      change.destinationOldName normalize = some (nameAt normalize before change.attnum) := by
  rcases hkind with hkind | hkind
  · exact ⟨(renamed_names normalize h hkind).1, (renamed_names normalize h hkind).2.2.1⟩
  · exact ⟨(mem_dropped_iff.1 ⟨change, h, hkind, rfl⟩).1, (dropped_names h hkind).2.2⟩

/-- Changes of other numbers leave a name of the old catalog alone. -/
theorem mem_columns_of_other (hbefore : DistinctColumns normalize before) {k : ℕ}
    (hk : k ∈ before.map (·.attnum)) (l : List ColumnChange)
    (hl : ∀ change ∈ l, change ∈ diffColumns before after ∧ change.attnum ≠ k)
    (hrun : l.foldlM (applyMove normalize types) s = .ok s')
    (hin : nameAt normalize before k ∈ s.table.columns) :
    nameAt normalize before k ∈ s'.table.columns := by
  refine Registered.mem_columns_moves l hrun hin fun change hchange hkind heq => ?_
  obtain ⟨hmem, hname⟩ := oldName_of_mem normalize (hl change hchange).1 hkind
  rw [hname, Option.some.injEq] at heq
  exact (hl change hchange).2 (hbefore.nameAt_inj hmem hk heq)

omit [ToString C] in
/-- Different changes of the diff have different numbers. -/
theorem attnum_ne_of_ne {change' : ColumnChange} (h : change ∈ diffColumns before after)
    (h' : change' ∈ diffColumns before after) (hne : change ≠ change') :
    change.attnum ≠ change'.attnum := fun heq =>
  hne (List.inj_on_of_nodup_map (nodup_attnums_diffColumns before after) h h' heq)

omit [ToString C] in
theorem dropsApart_moves (hbefore : DistinctColumns normalize before) :
    Registered.DropsApart normalize (moves normalize before after) := by
  have hapart : ∀ {change drop : ColumnChange}, change ∈ diffColumns before after →
      drop ∈ diffColumns before after → (drop.kind = .dropped → change.attnum ≠ drop.attnum) →
      drop.kind = .dropped → change.kind = .renamed ∨ change.kind = .dropped →
      change.destinationOldName normalize ≠ drop.destinationOldName normalize := by
    intro change drop hchange hdrop hne hdropped hkind heq
    obtain ⟨hmem, hname⟩ := oldName_of_mem normalize hchange hkind
    obtain ⟨hmem', hname'⟩ := oldName_of_mem normalize hdrop (Or.inr hdropped)
    rw [hname, hname', Option.some.injEq] at heq
    exact hne hdropped (hbefore.nameAt_inj hmem hmem' heq)
  have hsorted := pairwise_attnum_diffColumns before after
  have hfilter : ∀ p : ColumnChange → Bool, ((diffColumns before after).filter p).Pairwise
      fun change drop => drop.kind = .dropped → change.kind = .renamed ∨ change.kind = .dropped →
        change.destinationOldName normalize ≠ drop.destinationOldName normalize := by
    intro p
    refine (hsorted.filter p).imp_of_mem fun hchange hdrop hlt => ?_
    exact hapart (List.mem_filter.1 hchange).1 (List.mem_filter.1 hdrop).1 fun _ => hlt.ne
  rw [Registered.DropsApart, moves, List.pairwise_append, List.pairwise_append]
  refine ⟨⟨hfilter _, hfilter _, fun change hchange drop hdrop hdropped => ?_⟩, hfilter _,
    fun change hchange drop hdrop hdropped => ?_⟩
  · simp [(mem_renamesOf_iff.1 hdrop).2] at hdropped
  · obtain ⟨hdin, hdlate⟩ := mem_lateChanges_iff.1 hdrop
    have hcin : change ∈ diffColumns before after :=
      mem_diffColumns_of_mem_moves (List.mem_append_left _ hchange)
    refine hapart hcin hdin (fun _ => attnum_ne_of_ne hcin hdin fun heq => ?_) hdropped
    rcases List.mem_append.1 hchange with hearly | hrename
    · exact hdlate (heq ▸ hearly)
    · simp [heq ▸ (mem_renamesOf_iff.1 hrename).2] at hdropped

omit [DecidableEq V] [ToString C] in
theorem dropsFind_moves
    (hin : ∀ k ∈ before.map (·.attnum), nameAt normalize before k ∈ s.table.columns) :
    Registered.DropsFind normalize (moves normalize before after) s := by
  intro drop hdrop hkind
  obtain ⟨hmem, hname⟩ := oldName_of_mem normalize
    (mem_diffColumns_of_mem_moves hdrop) (Or.inr hkind)
  exact ⟨_, hin _ hmem, hname⟩

/-- Some rename of the first loop finds both of its names in use. -/
def Merges (normalize : String → C) (types : Registered.TypeRules C)
    (before after : List SourceColumn) (s s' : Registered C V) : Prop :=
  ∃ l rename m middle, moves normalize before after = l ++ rename :: m ∧
    l.foldlM (applyMove normalize types) s = .ok middle ∧
    (rename :: m).foldlM (applyMove normalize types) middle = .ok s' ∧ rename.kind = .renamed ∧
    ∃ old new, rename.destinationOldName normalize = some old ∧
      rename.destinationNewName normalize = some new ∧ old ≠ new ∧
      old ∈ middle.table.columns ∧ new ∈ middle.table.columns

theorem foldlM_append_eq_ok {l m : List ColumnChange} :
    (l ++ m).foldlM (applyMove normalize types) s = .ok s' ↔
      ∃ middle, l.foldlM (applyMove normalize types) s = .ok middle ∧
        m.foldlM (applyMove normalize types) middle = .ok s' := by
  rw [List.foldlM_append, except_bind_eq_ok]

theorem foldlM_cons_eq_ok {l : List ColumnChange} :
    (change :: l).foldlM (applyMove normalize types) s = .ok s' ↔
      ∃ next, applyMove normalize types s change = .ok next ∧
        l.foldlM (applyMove normalize types) next = .ok s' := by
  rw [List.foldlM_cons, except_bind_eq_ok]

omit [ToString C] in
/-- The renames of the diff, around one of them. -/
theorem renamesOf_split {rename : ColumnChange}
    (h : rename ∈ renamesOf (diffColumns before after)) :
    ∃ l m, renamesOf (diffColumns before after) = l ++ rename :: m ∧
      (∀ change ∈ l, change.attnum < rename.attnum) ∧
      ∀ change ∈ m, rename.attnum < change.attnum := by
  obtain ⟨l, m, heq⟩ := List.append_of_mem h
  have hsorted : (renamesOf (diffColumns before after)).Pairwise (·.attnum < ·.attnum) :=
    (pairwise_attnum_diffColumns before after).filter _
  rw [heq, List.pairwise_append] at hsorted
  exact ⟨l, m, heq, fun change hchange => hsorted.2.2 change hchange rename List.mem_cons_self,
    (List.pairwise_cons.1 hsorted.2.1).1⟩

/-- Before the first pass reaches a number that survives, its name is a column. -/
theorem mem_columns_before (hbefore : DistinctColumns normalize before) {k : ℕ}
    (hb : k ∈ before.map (·.attnum)) (ha : k ∈ after.map (·.attnum)) {l : List ColumnChange}
    (hl : ∀ change ∈ l, change ∈ renamesOf (diffColumns before after) ∧ change.attnum ≠ k)
    (hrun :
      (earlyDrops normalize (diffColumns before after) ++ l).foldlM (applyMove normalize types) s =
      .ok s')
    (hin : nameAt normalize before k ∈ s.table.columns) :
    nameAt normalize before k ∈ s'.table.columns := by
  have hother : ∀ change ∈ earlyDrops normalize (diffColumns before after) ++ l,
      change ∈ diffColumns before after ∧ change.attnum ≠ k := by
    intro change hchange
    rcases List.mem_append.1 hchange with hearly | hrename
    · obtain ⟨hmem, hkind, -⟩ := mem_earlyDrops_iff.1 hearly
      exact ⟨hmem, fun heq => (mem_dropped_iff.1 ⟨change, hmem, hkind, heq⟩).2 ha⟩
    · exact ⟨(mem_renamesOf_iff.1 (hl change hrename).1).1, (hl change hrename).2⟩
  exact mem_columns_of_other hbefore hb _ hother hrun hin

/-- **The first pass merges** when the giver of the name has the greater number. -/
theorem merges_first (hbefore : DistinctColumns normalize before)
    (hin : ∀ k ∈ before.map (·.attnum), nameAt normalize before k ∈ s.table.columns) {i j : ℕ}
    (hib : i ∈ before.map (·.attnum)) (hia : i ∈ after.map (·.attnum))
    (hjb : j ∈ before.map (·.attnum)) (hja : j ∈ after.map (·.attnum)) (hlt : i < j)
    (hpass : nameAt normalize after i = nameAt normalize before j)
    (hrun : (moves normalize before after).foldlM (applyMove normalize types) s = .ok s') :
    Merges normalize types before after s s' := by
  have hne : nameAt normalize before i ≠ nameAt normalize after i := fun heq =>
    hlt.ne (hbefore.nameAt_inj hib hjb (heq.trans hpass))
  obtain ⟨rename, hrename, rfl⟩ := mem_renamesOf_of_ne hib hia hne
  obtain ⟨l, m, hsplit, hless, -⟩ := renamesOf_split hrename
  have hmoves : moves normalize before after =
      earlyDrops normalize (diffColumns before after) ++ l ++
      rename :: (m ++ lateChanges normalize (diffColumns before after)) := by
    rw [moves, hsplit]
    simp
  rw [hmoves] at hrun
  obtain ⟨middle, hfirst, hrest⟩ := foldlM_append_eq_ok.1 hrun
  have hl : ∀ change ∈ l, change ∈ renamesOf (diffColumns before after) := fun change hchange =>
    hsplit ▸ List.mem_append_left _ hchange
  obtain ⟨hmem, hkind⟩ := mem_renamesOf_iff.1 hrename
  have hnames := renamed_names normalize hmem hkind
  refine ⟨_, rename, _, middle, hmoves, hfirst, hrest, hkind, _, _, hnames.2.2.1, hnames.2.2.2, hne,
    ?_, ?_⟩
  · exact mem_columns_before hbefore hib hia
      (fun change hchange => ⟨hl change hchange, (hless change hchange).ne⟩) hfirst (hin _ hib)
  · rw [hpass]
    exact mem_columns_before hbefore hjb hja
      (fun change hchange => ⟨hl change hchange, ((hless change hchange).trans hlt).ne⟩) hfirst
      (hin _ hjb)

/-- After the first pass has reached a number that survives, its new name is a column until a change
takes it away. -/
theorem mem_columns_after (hbefore : DistinctColumns normalize before)
    (hpresent : s.table.present = true) {rename : ColumnChange}
    (hrename : rename ∈ renamesOf (diffColumns before after))
    (hin : nameAt normalize before rename.attnum ∈ s.table.columns) {tail : List ColumnChange}
    (htail : ∀ change ∈ renamesOf (diffColumns before after), rename.attnum < change.attnum →
      change.destinationOldName normalize ≠ some (nameAt normalize after rename.attnum))
    (htail' : ∀ change ∈ tail, change.kind = .renamed ∨ change.kind = .dropped →
      change.destinationOldName normalize ≠ some (nameAt normalize after rename.attnum))
    (hrun :
      (earlyDrops normalize (diffColumns before after) ++ renamesOf (diffColumns before after) ++
      tail).foldlM (applyMove normalize types) s = .ok s') :
    nameAt normalize after rename.attnum ∈ s'.table.columns := by
  obtain ⟨l, m, hsplit, hless, hmore⟩ := renamesOf_split hrename
  have hlist :
      earlyDrops normalize (diffColumns before after) ++ renamesOf (diffColumns before after) ++
      tail = earlyDrops normalize (diffColumns before after) ++ l ++ rename :: (m ++ tail) := by
    rw [hsplit]
    simp
  rw [hlist] at hrun
  obtain ⟨middle, hfirst, hrest⟩ := foldlM_append_eq_ok.1 hrun
  obtain ⟨next, hmove, hrest⟩ := foldlM_cons_eq_ok.1 hrest
  obtain ⟨hmem, hkind⟩ := mem_renamesOf_iff.1 hrename
  obtain ⟨hb, ha, hold, hnew⟩ := renamed_names normalize hmem hkind
  have hmiddle := mem_columns_before hbefore hb ha (fun change hchange =>
    ⟨hsplit ▸ List.mem_append_left _ hchange, (hless change hchange).ne⟩) hfirst hin
  have hnext := Registered.mem_columns_renamed hmove
    ((Registered.present_moves _ hfirst).trans hpresent) hkind hold hnew hmiddle
  refine Registered.mem_columns_moves _ hrest hnext fun change hchange hkind' => ?_
  rcases List.mem_append.1 hchange with hchange | hchange
  · refine htail change ?_ (hmore change hchange)
    rw [hsplit]
    exact List.mem_append_right _ (List.mem_cons_of_mem _ hchange)
  · exact htail' change hchange hkind'

/-- **The second pass merges** when the taker of the name has the greater number and the giver's new
name was free: the giver's rename runs again, on the column that took its name. -/
theorem merges_second (hbefore : DistinctColumns normalize before)
    (hpresent : s.table.present = true)
    (hin : ∀ k ∈ before.map (·.attnum), nameAt normalize before k ∈ s.table.columns) {i j : ℕ}
    (hib : i ∈ before.map (·.attnum)) (hia : i ∈ after.map (·.attnum))
    (hjb : j ∈ before.map (·.attnum)) (hja : j ∈ after.map (·.attnum)) (hlt : j < i)
    (hpass : nameAt normalize after i = nameAt normalize before j)
    (hne : nameAt normalize before j ≠ nameAt normalize after j)
    (hlast : ∀ k, k ∈ before.map (·.attnum) → k ∈ after.map (·.attnum) → k ≠ j →
      nameAt normalize after j ≠ nameAt normalize before k)
    (hrun : (moves normalize before after).foldlM (applyMove normalize types) s = .ok s') :
    Merges normalize types before after s s' := by
  have hnei : nameAt normalize before i ≠ nameAt normalize after i := fun heq =>
    hlt.ne' (hbefore.nameAt_inj hib hjb (heq.trans hpass))
  obtain ⟨taker, htaker, rfl⟩ := mem_renamesOf_of_ne hib hia hnei
  obtain ⟨giver, hgiver, rfl⟩ := mem_renamesOf_of_ne hjb hja hne
  obtain ⟨hgmem, hgkind⟩ := mem_renamesOf_iff.1 hgiver
  have hgnames := renamed_names normalize hgmem hgkind
  have hlate : giver ∈ lateChanges normalize (diffColumns before after) :=
    mem_lateChanges_iff.2 ⟨hgmem, fun hearly => by
      simp [(mem_earlyDrops_iff.1 hearly).2.1] at hgkind⟩
  obtain ⟨l, m, hsplit⟩ := List.append_of_mem hlate
  have hl : ∀ change ∈ l, change ∈ lateChanges normalize (diffColumns before after) ∧
      change.attnum < giver.attnum := by
    intro change hchange
    have hsorted : (lateChanges normalize (diffColumns before after)).Pairwise
        (·.attnum < ·.attnum) := (pairwise_attnum_diffColumns before after).filter _
    rw [hsplit, List.pairwise_append] at hsorted
    exact ⟨hsplit ▸ List.mem_append_left _ hchange,
      hsorted.2.2 change hchange giver List.mem_cons_self⟩
  have hmoves : moves normalize before after = earlyDrops normalize (diffColumns before after) ++
      renamesOf (diffColumns before after) ++ l ++ giver :: m := by
    rw [moves, hsplit]
    simp
  rw [hmoves] at hrun
  obtain ⟨middle, hfirst, hrest⟩ := foldlM_append_eq_ok.1 hrun
  refine ⟨_, giver, _, middle, hmoves, hfirst, hrest, hgkind, _, _, hgnames.2.2.1, hgnames.2.2.2,
    hne, ?_, ?_⟩
  · -- The taker put its column under the giver's old name.
    rw [← hpass]
    refine mem_columns_after hbefore hpresent htaker (hin _ hib)
      (fun change hchange hmore heq => ?_)
      (fun change hchange hkind heq => ?_) hfirst
    · obtain ⟨hmem, hkind⟩ := mem_renamesOf_iff.1 hchange
      obtain ⟨hb, hname⟩ := oldName_of_mem normalize hmem (Or.inl hkind)
      rw [hname, Option.some.injEq, hpass] at heq
      have hsame : change.attnum = giver.attnum := hbefore.nameAt_inj hb hjb heq
      omega
    · obtain ⟨hb, hname⟩ := oldName_of_mem normalize (mem_lateChanges_iff.1 (hl change hchange).1).1
        hkind
      rw [hname, Option.some.injEq, hpass] at heq
      have hsame : change.attnum = giver.attnum := hbefore.nameAt_inj hb hjb heq
      have hless := (hl change hchange).2
      omega
  · -- The giver's own column is still under its new name.
    have hfree : ∀ change ∈ diffColumns before after, change.kind = .renamed →
        change.attnum ≠ giver.attnum →
        change.destinationOldName normalize ≠ some (nameAt normalize after giver.attnum) := by
      intro change hmem hkind hother heq
      have hnames := renamed_names normalize hmem hkind
      rw [hnames.2.2.1, Option.some.injEq] at heq
      exact hlast _ hnames.1 hnames.2.1 hother heq.symm
    refine mem_columns_after hbefore hpresent hgiver (hin _ hjb) (fun change hchange hmore => ?_)
      (fun change hchange hkind => ?_) hfirst
    · obtain ⟨hmem, hkind⟩ := mem_renamesOf_iff.1 hchange
      exact hfree change hmem hkind hmore.ne'
    · obtain ⟨hmem, hnotearly⟩ := mem_lateChanges_iff.1 (hl change hchange).1
      rcases hkind with hkind | hkind
      · exact hfree change hmem hkind (hl change hchange).2.ne
      · exact fun heq => hnotearly (mem_earlyDrops_iff.2
          ⟨hmem, hkind, giver, hgiver, hgnames.2.2.2.trans heq.symm⟩)

/-- **A name passed on makes a rename merge.** -/
theorem exists_merge (hbefore : DistinctColumns normalize before)
    (hafter : DistinctColumns normalize after) (hpresent : s.table.present = true)
    (hin : ∀ k ∈ before.map (·.attnum), nameAt normalize before k ∈ s.table.columns)
    (hpassed : ¬ NoNamePassedOn normalize before after)
    (hrun : (moves normalize before after).foldlM (applyMove normalize types) s = .ok s') :
    Merges normalize types before after s s' := by
  classical
  rw [noNamePassedOn_iff hbefore hafter] at hpassed
  push Not at hpassed
  -- The giver with the least number.
  have hexists : ∃ j, ∃ i, i ∈ before.map (·.attnum) ∧ i ∈ after.map (·.attnum) ∧
      j ∈ before.map (·.attnum) ∧ j ∈ after.map (·.attnum) ∧ i ≠ j ∧
      nameAt normalize after i = nameAt normalize before j := by
    obtain ⟨i, j, h⟩ := hpassed
    exact ⟨j, i, h⟩
  obtain ⟨i, hib, hia, hjb, hja, hij, hpass⟩ := Nat.find_spec hexists
  have hleast : ∀ k, k < Nat.find hexists → _ := fun k hk => Nat.find_min hexists hk
  set j := Nat.find hexists
  by_cases hlt : i < j
  · exact merges_first hbefore hin hib hia hjb hja hlt hpass hrun
  · by_cases hnext : ∃ k, k ∈ before.map (·.attnum) ∧ k ∈ after.map (·.attnum) ∧ k ≠ j ∧
        nameAt normalize after j = nameAt normalize before k
    · obtain ⟨k, hkb, hka, hkj, hkpass⟩ := hnext
      have hjk : j < k := by
        by_contra hle
        exact hleast k (by omega) ⟨j, hjb, hja, hkb, hka, hkj.symm, hkpass⟩
      exact merges_first hbefore hin hjb hja hkb hka hjk hkpass hrun
    · have hne : nameAt normalize before j ≠ nameAt normalize after j := fun heq =>
        hij (hafter.nameAt_inj hia hja (hpass.trans heq))
      exact merges_second hbefore hpresent hin hib hia hjb hja (by omega) hpass hne
        (fun k hkb hka hkj heq => hnext ⟨k, hkb, hka, hkj, heq⟩) hrun

/-! ### Counting -/

omit [DecidableEq C] [ToString C] in
/-- The two catalogs, counted: what survives is what is not dropped and what is not added. -/
theorem length_add_added (hbefore : (before.map (·.attnum)).Nodup)
    (hafter : (after.map (·.attnum)).Nodup) :
    before.length + (diffColumns before after).countP (·.kind = .added) =
      after.length + (diffColumns before after).countP (·.kind = .dropped) := by
  have hpart : ∀ {l m : List SourceColumn} {kind : ChangeKind}, (l.map (·.attnum)).Nodup →
      (∀ k, (∃ change ∈ diffColumns before after, change.kind = kind ∧ change.attnum = k) ↔
        k ∈ l.map (·.attnum) ∧ k ∉ m.map (·.attnum)) →
      l.length = ((l.map (·.attnum)).filter (· ∈ m.map (·.attnum))).length +
        (diffColumns before after).countP (·.kind = kind) := by
    intro l m kind hnodup hiff
    have hperm : (((diffColumns before after).filter (·.kind = kind)).map (·.attnum)).Perm
        ((l.map (·.attnum)).filter (· ∉ m.map (·.attnum))) := by
      refine (List.perm_ext_iff_of_nodup (nodup_attnums_filter _) (hnodup.filter _)).2 fun k => ?_
      rw [List.mem_filter, decide_eq_true_iff, ← hiff k, List.mem_map]
      simp [and_assoc]
    have hkind := hperm.length_eq
    have hl := List.length_eq_length_filter_add (l := l.map (·.attnum)) (· ∈ m.map (·.attnum))
    rw [List.length_map] at hkind hl
    rw [List.countP_eq_length_filter, hkind, hl]
    simp only [decide_not]
  have hb := hpart hbefore fun k => mem_dropped_iff
  have ha := hpart hafter fun k => mem_added_iff.trans and_comm
  have hsame : ((before.map (·.attnum)).filter (· ∈ after.map (·.attnum))).Perm
      ((after.map (·.attnum)).filter (· ∈ before.map (·.attnum))) := by
    refine (List.perm_ext_iff_of_nodup (hbefore.filter _) (hafter.filter _)).2 fun k => ?_
    rw [List.mem_filter, List.mem_filter, decide_eq_true_iff, decide_eq_true_iff, and_comm]
  have hlength := hsame.length_eq
  omega

omit [ToString C] in
/-- The first loop runs each drop once. -/
theorem countP_dropped_moves : (moves normalize before after).countP (·.kind = .dropped) =
    (diffColumns before after).countP (·.kind = .dropped) := by
  have hrenames : (renamesOf (diffColumns before after)).countP (·.kind = .dropped) = 0 := by
    rw [List.countP_eq_zero]
    intro change hchange
    simp [(mem_renamesOf_iff.1 hchange).2]
  have hlate : lateChanges normalize (diffColumns before after) = (diffColumns before after).filter
      fun change => ¬ (change.kind = .dropped ∧ change.destinationOldName normalize ∈
        (renamesOf (diffColumns before after)).map
          (ColumnChange.destinationNewName normalize)) := by
    refine List.filter_congr fun change hchange => ?_
    rw [decide_eq_decide, earlyDrops, List.mem_filter, decide_eq_true_iff]
    simp [hchange]
  rw [moves, List.countP_append, List.countP_append, hrenames, hlate, earlyDrops, add_zero,
    List.countP_eq_countP_filter_add (diffColumns before after) _ (fun change =>
      change.kind = .dropped ∧ change.destinationOldName normalize ∈
        (renamesOf (diffColumns before after)).map (ColumnChange.destinationNewName normalize))]
  simp only [decide_not]

/-- **Identity is preserved exactly when no name is passed on**, for every pair of catalog listings
and every table with one column for each old name, when the script is not refused. -/
theorem preservesIdentity_iff (hbefore : DistinctColumns normalize before)
    (hafter : DistinctColumns normalize after) (hpresent : s.table.present = true)
    (hcolumns : s.table.columns.Perm (before.map fun b => normalize b.name))
    (hrun : applyColumnChanges normalize types s (diffColumns before after) = .ok s') :
    PreservesIdentity normalize before after s s' ↔ NoNamePassedOn normalize before after := by
  refine ⟨fun hpreserves => ?_, fun hnone =>
    preservesIdentity_of_noNamePassedOn hbefore hafter hpresent hcolumns hnone hrun⟩
  by_contra hpassed
  have hin : ∀ k ∈ before.map (·.attnum), nameAt normalize before k ∈ s.table.columns :=
    fun k hk => hcolumns.mem_iff.2 (hbefore.map_nameAt ▸ List.mem_map_of_mem hk)
  rw [applyColumnChanges] at hrun
  obtain ⟨moved, hmoves, hshapes⟩ := except_bind_eq_ok.1 hrun
  obtain ⟨l, rename, m, middle, hlist, hfirst, hrest, hkind, old, new, hold, hnew, hne, hoin,
    hnin⟩ :=
    exists_merge hbefore hafter hpresent hin hpassed hmoves
  have hless := Registered.length_columns_moves_merge hfirst hrest hpresent
    (hlist ▸ dropsFind_moves hin) (hlist ▸ dropsApart_moves hbefore) hkind hold hnew hne hoin hnin
  have hmore := Registered.length_columns_shapes _ hshapes
  have hcount := length_add_added hbefore.attnums hafter.attnums
  rw [← hlist, countP_dropped_moves] at hless
  have hs := hcolumns.length_eq
  have hs' := hpreserves.columns.length_eq
  rw [List.length_map] at hs hs'
  omega

end PassedOn

/-! ### Two catalogs of the accounts -/

namespace Accounts

/-- Columns of one type, with normalized names. -/
def listing (columns : List (ℕ × String)) : List SourceColumn :=
  columns.map fun (attnum, name) => { attnum, name, descriptor := { fingerprint := "text" } }

/-- A table with the given columns and one row, which holds each column's name. -/
def named (columns : List String) : Registered String String where
  table :=
    { name := "accounts", columns, keyColumns := ["id"]
      rows := [⟨fun c => if c ∈ columns then some c else none, { eventId := some "0" }⟩] }

/-- Every conversion works. -/
def anyType : Registered.TypeRules String := ⟨fun _ _ _ => true, fun _ _ => true⟩

theorem distinctColumns_listing {columns : List (ℕ × String)} (h : (columns.map (·.1)).Nodup)
    (h' : (columns.map (·.2)).Nodup) : DistinctColumns id (listing columns) where
  attnums := by
    rw [listing, List.map_map]
    exact h
  names := by
    rw [listing, List.map_map]
    exact h'

/-- `body` becomes `text` and `note` becomes `body`. -/
def chained : List (ℕ × String) := [(1, "id"), (2, "text"), (3, "body")]

/-- **A chain of renames merges two columns**: the second pass renames `body` again, which is now
the column of `note`. -/
theorem chained_not_preserved : ∃ s', applyColumnChanges id anyType (named ["id", "body", "note"])
      (diffColumns (listing [(1, "id"), (2, "body"), (3, "note")]) (listing chained)) = .ok s' ∧
    s'.table.columns = ["id", "text"] ∧
    ¬ PreservesIdentity id (listing [(1, "id"), (2, "body"), (3, "note")]) (listing chained)
      (named ["id", "body", "note"]) s' := by
  have hrun : ((applyColumnChanges id anyType (named ["id", "body", "note"])
      (diffColumns (listing [(1, "id"), (2, "body"), (3, "note")]) (listing chained))).map
        fun s' => s'.table.columns) = .ok ["id", "text"] := by
    rfl
  obtain ⟨s', hs', hcolumns⟩ := except_map_eq_ok.1 hrun
  refine ⟨s', hs', hcolumns, fun hpreserves => ?_⟩
  have hlength := hpreserves.columns.length_eq
  rw [hcolumns] at hlength
  simp [listing, chained] at hlength

/-- A rename, a drop, a new column under the dropped name, and a new column. -/
theorem renamed_preserved : ∃ s', applyColumnChanges id anyType (named ["id", "body", "note"])
      (diffColumns (listing [(1, "id"), (2, "body"), (3, "note")])
        (listing [(1, "id"), (2, "text"), (4, "note"), (5, "size")])) = .ok s' ∧
    PreservesIdentity id (listing [(1, "id"), (2, "body"), (3, "note")])
      (listing [(1, "id"), (2, "text"), (4, "note"), (5, "size")])
      (named ["id", "body", "note"]) s' := by
  have hrun : ((applyColumnChanges id anyType (named ["id", "body", "note"])
      (diffColumns (listing [(1, "id"), (2, "body"), (3, "note")])
        (listing [(1, "id"), (2, "text"), (4, "note"), (5, "size")]))).map
          fun s' => s'.table.columns) = .ok ["id", "text", "note", "size"] := by
    rfl
  obtain ⟨s', hs', -⟩ := except_map_eq_ok.1 hrun
  refine ⟨s', hs', (preservesIdentity_iff (distinctColumns_listing (by decide) (by decide))
    (distinctColumns_listing (by decide) (by decide)) rfl (List.Perm.refl _) hs').2 ?_⟩
  simp [NoNamePassedOn, listing]

end Accounts

end CdcFlight
