import CdcFlight.Schema.Diff
import CdcFlight.Source.Records

/-!
# Column identity under schema evolution

The script of `apply_column_changes` runs every rename twice, once among the renames and once among
the changes that are not early drops, in the order of the attribute numbers. When no surviving
column takes the old name of another surviving column, the second pass finds nothing to do and the
script moves each column to its new name. When one does, a rename finds its target name in use and
merges two columns.

## Main definitions

* `CdcFlight.Registered.Located`: which attribute number lives under which name.
* `CdcFlight.PreservesIdentity`: the data of every attribute number is under its new name.
* `CdcFlight.NoNamePassedOn`: no surviving column takes the old name of another one.

## Main results

* `CdcFlight.Registered.renameColumn_cases`, `CdcFlight.Registered.applyMove_cases`: what a
  statement and a change can do.
* `CdcFlight.Registered.Located.renames`, `CdcFlight.Registered.Located.settle`,
  `CdcFlight.Registered.Located.adds`: the three phases of the script.
-/

namespace CdcFlight

open Lib

variable {C V : Type} [DecidableEq C] [DecidableEq V] [ToString C] {normalize : String → C}

namespace Registered

/-- The values of a column, row by row. -/
def column (s : Registered C V) (c : C) : List (Option V) := s.table.rows.map (·.values c)

/-! ### Inversion of the statements -/

section Inversion

variable {s s' : Registered C V} {types : TypeRules C} {change : ColumnChange}

omit [ToString C] in
/-- What `rename_column` can do. -/
theorem renameColumn_cases {old new : C} (h : s.renameColumn old new = .ok s') :
    ((old = new ∨ s.table.present = false) ∧ s' = s) ∨
    (old ≠ new ∧ old ∈ s.table.columns ∧ new ∉ s.table.columns ∧
      s' = (s.alterRename old new).renameKeys old new) ∨
    (old ≠ new ∧ old ∈ s.table.columns ∧ new ∈ s.table.columns ∧
      s' = (((s.mergeColumns old new).alterDrop old).clearPresence new).renameKeys old new) ∨
    (old ∉ s.table.columns ∧ s' = s.renameKeys old new) := by
  rw [renameColumn] at h
  by_cases hskip : old = new ∨ ¬ s.table.present = true
  · rw [if_pos hskip] at h
    exact Or.inl ⟨by simpa using hskip, (Except.ok.inj h).symm⟩
  · rw [if_neg hskip] at h
    rw [not_or] at hskip
    by_cases hold : old ∈ s.table.columns
    · by_cases hnew : new ∈ s.table.columns
      · rw [if_neg (by simp [hnew]), if_pos hold] at h
        simp only at h
        split_ifs at h
        exact Or.inr (Or.inr (Or.inl ⟨hskip.1, hold, hnew, (Except.ok.inj h).symm⟩))
      · rw [if_pos ⟨hold, hnew⟩] at h
        exact Or.inr (Or.inl ⟨hskip.1, hold, hnew, (Except.ok.inj h).symm⟩)
    · rw [if_neg (by simp [hold]), if_neg hold] at h
      exact Or.inr (Or.inr (Or.inr ⟨hold, (Except.ok.inj h).symm⟩))

omit [DecidableEq C] [DecidableEq V] in
/-- A conversion keeps the values. -/
theorem convertColumn_eq_ok {column : C} {d d' : Option Descriptor}
    (h : s.convertColumn types column d d' = .ok s') : s' = s := by
  rw [convertColumn.eq_def] at h
  split at h
  · split_ifs at h
    exact (Except.ok.inj h).symm
  · cases h

/-- What one change of the first loop does: a rename, a drop, or nothing. -/
theorem applyMove_cases (h : applyMove normalize types s change = .ok s') :
    (∃ old new, change.kind = .renamed ∧ change.destinationOldName normalize = some old ∧
      change.destinationNewName normalize = some new ∧ s.renameColumn old new = .ok s') ∨
    (∃ old, change.kind = .dropped ∧ change.destinationOldName normalize = some old ∧
      s.dropColumn old = .ok s') ∨
    (s' = s ∧ (change.kind = .renamed → change.destinationOldName normalize = none ∨
        change.destinationNewName normalize = none) ∧
      (change.kind = .dropped → change.destinationOldName normalize = none)) := by
  rcases hkind : change.kind <;> rcases hold : change.destinationOldName normalize with _ | old <;>
    rcases hnew : change.destinationNewName normalize with _ | new <;>
    simp only [applyMove, hkind, hold, hnew] at h
  case renamed.some.some =>
    obtain ⟨renamed, hrename, hconvert⟩ := except_bind_eq_ok.1 h
    have hrenamed : s' = renamed := by
      split_ifs at hconvert
      · exact convertColumn_eq_ok hconvert
      · exact (Except.ok.inj hconvert).symm
    exact Or.inl ⟨old, new, rfl, rfl, rfl, hrenamed ▸ hrename⟩
  case dropped.some.none => exact Or.inr (Or.inl ⟨old, rfl, rfl, h⟩)
  case dropped.some.some => exact Or.inr (Or.inl ⟨old, rfl, rfl, h⟩)
  all_goals exact Or.inr (Or.inr ⟨(Except.ok.inj h).symm, by simp, by simp⟩)

theorem renameColumn_of_move (h : applyMove normalize types s change = .ok s')
    (hkind : change.kind = .renamed) {old new : C}
    (hold : change.destinationOldName normalize = some old)
    (hnew : change.destinationNewName normalize = some new) : s.renameColumn old new = .ok s' := by
  rcases applyMove_cases h with ⟨old', new', -, hold', hnew', h⟩ | ⟨_, hkind', -⟩ | ⟨-, hnone, -⟩
  · rw [hold, Option.some.injEq] at hold'
    rw [hnew, Option.some.injEq] at hnew'
    rw [hold', hnew']
    exact h
  · simp [hkind] at hkind'
  · simp [hkind, hold, hnew] at hnone

theorem dropColumn_of_move (h : applyMove normalize types s change = .ok s')
    (hkind : change.kind = .dropped) {old : C}
    (hold : change.destinationOldName normalize = some old) : s.dropColumn old = .ok s' := by
  rcases applyMove_cases h with ⟨_, _, hkind', -⟩ | ⟨old', -, hold', h⟩ | ⟨-, -, hnone⟩
  · simp [hkind] at hkind'
  · rw [hold, Option.some.injEq] at hold'
    rw [hold']
    exact h
  · simp [hnone hkind] at hold

end Inversion

/-! ### Statements and locations -/

/-- **Where the attribute numbers live.** The columns of the table are the names of the live
numbers, no two share a name, and under each name is the content of its number. -/
structure Located (content : ℕ → List (Option V)) (live : List ℕ) (loc : ℕ → C)
    (s : Registered C V) : Prop where
  present : s.table.present = true
  columns : s.table.columns.Perm (live.map loc)
  nodup : (live.map loc).Nodup
  data : ∀ k ∈ live, s.column (loc k) = content k

variable {content : ℕ → List (Option V)} {live : List ℕ} {loc : ℕ → C} {s s' : Registered C V}
  {types : TypeRules C}

namespace Located

omit [DecidableEq V] [ToString C] [DecidableEq C] in
theorem mem_columns (h : Located content live loc s) {c : C} :
    c ∈ s.table.columns ↔ ∃ k ∈ live, loc k = c := by
  rw [h.columns.mem_iff, List.mem_map]

omit [DecidableEq V] [ToString C] [DecidableEq C] in
theorem injOn (h : Located content live loc s) {j k : ℕ} (hj : j ∈ live) (hk : k ∈ live)
    (heq : loc j = loc k) : j = k :=
  List.inj_on_of_nodup_map h.nodup hj hk heq

omit [DecidableEq V] [ToString C] [DecidableEq C] in
/-- The key columns play no part. -/
theorem congr (h : Located content live loc s) (hpresent : s'.table.present = s.table.present)
    (hcolumns : s'.table.columns = s.table.columns) (hrows : s'.table.rows = s.table.rows) :
    Located content live loc s' where
  present := hpresent.trans h.present
  columns := hcolumns ▸ h.columns
  nodup := h.nodup
  data k hk := by
    rw [column, hrows]
    exact h.data k hk

omit [ToString C] in
/-- A rename to a free name moves the number. -/
theorem rename_of_free (h : Located content live loc s) {k : ℕ} (hk : k ∈ live) {new : C}
    (hne : loc k ≠ new) (hfree : ∀ j ∈ live, loc j ≠ new)
    (hrun : s.renameColumn (loc k) new = .ok s') :
    Located content live (Function.update loc k new) s' := by
  have hold : loc k ∈ s.table.columns := h.mem_columns.2 ⟨k, hk, rfl⟩
  have hnew : new ∉ s.table.columns := fun hin => by
    obtain ⟨j, hj, hloc⟩ := h.mem_columns.1 hin
    exact hfree j hj hloc
  rw [renameColumn, if_neg (by simp [hne, h.present]), if_pos ⟨hold, hnew⟩, Except.ok.injEq] at hrun
  subst hrun
  have hloc : ∀ j ∈ live, (if loc j = loc k then new else loc j) = Function.update loc k new j := by
    intro j hj
    by_cases hjk : j = k
    · simp [hjk]
    · rw [Function.update_of_ne hjk, if_neg fun heq => hjk (h.injOn hj hk heq)]
  have hmap : (live.map loc).map (fun c => if c = loc k then new else c) =
      live.map (Function.update loc k new) := by
    rw [List.map_map]
    exact List.map_congr_left hloc
  refine ⟨h.present, ?_, ?_, fun j hj => ?_⟩
  · rw [← hmap]
    exact h.columns.map _
  · refine (List.nodup_map_iff_inj_on h.nodup.of_map).2 fun i hi j hj heq => ?_
    by_cases hik : i = k <;> by_cases hjk : j = k
    · rw [hik, hjk]
    · rw [hik, Function.update_self, Function.update_of_ne hjk] at heq
      exact absurd heq.symm (hfree j hj)
    · rw [hjk, Function.update_self, Function.update_of_ne hik] at heq
      exact absurd heq (hfree i hi)
    · rw [Function.update_of_ne hik, Function.update_of_ne hjk] at heq
      exact h.injOn hi hj heq
  · rw [← h.data j hj]
    simp only [column, renameKeys, alterRename, List.map_map]
    refine List.map_congr_left fun r _ => ?_
    by_cases hjk : j = k
    · simp [hjk]
    · have hloc' : loc j ≠ loc k := fun heq => hjk (h.injOn hj hk heq)
      simp [Function.update_of_ne hjk, hfree j hj, hloc']

omit [ToString C] in
/-- A rename of a name that is not there, or to itself, moves nothing. -/
theorem rename_of_absent (h : Located content live loc s) {old new : C}
    (habsent : old = new ∨ ∀ j ∈ live, loc j ≠ old) (hrun : s.renameColumn old new = .ok s') :
    Located content live loc s' := by
  rcases habsent with rfl | habsent
  · rw [renameColumn, if_pos (Or.inl rfl), Except.ok.injEq] at hrun
    exact hrun ▸ h
  · have hold : old ∉ s.table.columns := fun hin => by
      obtain ⟨j, hj, hloc⟩ := h.mem_columns.1 hin
      exact habsent j hj hloc
    rw [renameColumn] at hrun
    split_ifs at hrun with hsame hmove
    · exact Except.ok.inj hrun ▸ h
    · exact absurd hmove.1 hold
    · exact h.congr (by rw [← Except.ok.inj hrun]; rfl) (by rw [← Except.ok.inj hrun]; rfl)
        (by rw [← Except.ok.inj hrun]; rfl)

omit [DecidableEq V] in
/-- A drop removes the number that lives under the name. -/
theorem drop (h : Located content live loc s) {k : ℕ} (hk : k ∈ live)
    (hrun : s.dropColumn (loc k) = .ok s') :
    Located content (live.filter (· ≠ k)) loc s' := by
  have hold : loc k ∈ s.table.columns := h.mem_columns.2 ⟨k, hk, rfl⟩
  rw [dropColumn, if_neg (by simp [h.present, hold])] at hrun
  split_ifs at hrun with hkey
  rw [Except.ok.injEq] at hrun
  subst hrun
  have hfilter : (live.map loc).filter (· ≠ loc k) = (live.filter (· ≠ k)).map loc := by
    rw [List.filter_map]
    refine congrArg _ (List.filter_congr fun j hj => ?_)
    simp only [Function.comp_apply, decide_eq_decide, ne_eq, not_iff_not]
    exact ⟨h.injOn hj hk, fun heq => by rw [heq]⟩
  refine ⟨h.present, ?_, ?_, fun j hj => ?_⟩
  · rw [← hfilter]
    exact h.columns.filter _
  · rw [← hfilter]
    exact h.nodup.filter _
  · obtain ⟨hj, hjk⟩ := List.mem_filter.1 hj
    have hloc : loc j ≠ loc k := fun heq => of_decide_eq_true hjk (h.injOn hj hk heq)
    rw [← h.data j hj]
    simp only [column, alterDrop, List.map_map]
    exact List.map_congr_left fun r _ => by simp [hloc]

omit [DecidableEq V] in
/-- An added column holds nothing. -/
theorem add (h : Located content live loc s) {k : ℕ}
    (hfree : ∀ j ∈ live, loc j ≠ loc k) (hcontent : content k = s.table.rows.map fun _ => none)
    {descriptor : Descriptor} (hrun : s.addColumn types (loc k) descriptor = .ok s') :
    Located content (live ++ [k]) loc s' := by
  have hnew : loc k ∉ s.table.columns := fun hin => by
    obtain ⟨j, hj, hloc⟩ := h.mem_columns.1 hin
    exact hfree j hj hloc
  rw [addColumn] at hrun
  split_ifs at hrun with hnative
  rw [Except.ok.injEq] at hrun
  subst hrun
  refine ⟨h.present, ?_, ?_, fun j hj => ?_⟩
  · rw [List.map_append]
    exact h.columns.append_right _
  · rw [List.map_append]
    refine List.nodup_append.2 ⟨h.nodup, List.nodup_singleton _, fun c hc c' hc' heq => ?_⟩
    obtain ⟨j, hj, rfl⟩ := List.mem_map.1 hc
    exact hfree j hj (heq.trans (List.mem_singleton.1 hc'))
  · simp only [column, alterAdd, List.map_map]
    rcases List.mem_append.1 hj with hj | hj
    · rw [← h.data j hj]
      exact List.map_congr_left fun r _ => by simp [hfree j hj]
    · rw [List.mem_singleton.1 hj, hcontent]
      exact List.map_congr_left fun r _ => by simp

end Located

namespace Located

/-! ### The phases of the script -/

/-- **Renames to free names.** A list of renames moves each of its numbers to its destination, if no
destination is the name of another live number, before or after. -/
theorem renames {dest : ℕ → C} (l : List ColumnChange) : ∀ {loc : ℕ → C} {s : Registered C V},
    Located content live loc s → (l.map (·.attnum)).Nodup →
    (∀ change ∈ l, change.kind = .renamed ∧ change.attnum ∈ live ∧
      change.destinationOldName normalize = some (loc change.attnum) ∧
      change.destinationNewName normalize = some (dest change.attnum)) →
    (∀ change ∈ l, ∀ k ∈ live, k ≠ change.attnum → dest change.attnum ≠ loc k) →
    (∀ change ∈ l, ∀ change' ∈ l, change'.attnum ≠ change.attnum →
      dest change.attnum ≠ dest change'.attnum) →
    l.foldlM (applyMove normalize types) s = .ok s' →
    Located content live (fun k => if k ∈ l.map (·.attnum) then dest k else loc k) s' := by
  induction l with
  | nil =>
    intro loc s h _ _ _ _ hrun
    cases hrun
    simpa using h
  | cons change l ih =>
    intro loc s h hnodup hl hloc hdest hrun
    rw [List.foldlM_cons] at hrun
    obtain ⟨next, hmove, hrest⟩ := except_bind_eq_ok.1 hrun
    obtain ⟨hkind, hin, hold, hnew⟩ := hl change List.mem_cons_self
    rw [List.map_cons, List.nodup_cons] at hnodup
    -- The head moves its number, unless its old and new names are the same.
    have hnext : Located content live (Function.update loc change.attnum (dest change.attnum))
        next := by
      have hrename := renameColumn_of_move hmove hkind hold hnew
      by_cases hsame : loc change.attnum = dest change.attnum
      · rw [← hsame, Function.update_eq_self]
        exact h.rename_of_absent (Or.inl hsame) hrename
      · refine h.rename_of_free hin hsame (fun k hk heq => ?_) hrename
        by_cases hk' : k = change.attnum
        · exact hsame (hk' ▸ heq)
        · exact hloc change List.mem_cons_self k hk hk' heq.symm
    have hne : ∀ change' ∈ l, change'.attnum ≠ change.attnum := fun change' hchange' heq =>
      hnodup.1 (heq ▸ List.mem_map_of_mem hchange')
    have htail := ih hnext hnodup.2
      (fun change' hchange' => ?_) (fun change' hchange' k hk hne' => ?_)
      (fun c hc c' hc' => hdest c (List.mem_cons_of_mem _ hc) c' (List.mem_cons_of_mem _ hc')) hrest
    · convert htail using 2 with k
      by_cases hk : k = change.attnum
      · subst hk
        simp [hnodup.1]
      · simp [hk]
    · obtain ⟨hkind', hin', hold', hnew'⟩ := hl change' (List.mem_cons_of_mem _ hchange')
      rw [Function.update_of_ne (hne change' hchange')]
      exact ⟨hkind', hin', hold', hnew'⟩
    · by_cases hk' : k = change.attnum
      · subst hk'
        rw [Function.update_self]
        exact hdest change' (List.mem_cons_of_mem _ hchange') change List.mem_cons_self
          (hne change' hchange').symm
      · rw [Function.update_of_ne hk']
        exact hloc change' (List.mem_cons_of_mem _ hchange') k hk hne'

/-- **Drops among renames that find nothing.** The numbers dropped by the list are no longer live;
nothing else moves. -/
theorem settle (l : List ColumnChange) : ∀ {live : List ℕ} {s : Registered C V},
    Located content live loc s → (l.map (·.attnum)).Nodup →
    (∀ change ∈ l, change.kind = .renamed → ∀ old new,
      change.destinationOldName normalize = some old →
      change.destinationNewName normalize = some new → old = new ∨ ∀ k ∈ live, loc k ≠ old) →
    (∀ change ∈ l, change.kind = .dropped → change.attnum ∈ live ∧
      change.destinationOldName normalize = some (loc change.attnum)) →
    l.foldlM (applyMove normalize types) s = .ok s' →
    Located content (live.filter fun k => k ∉ (l.filter (·.kind = .dropped)).map (·.attnum)) loc
      s' := by
  induction l with
  | nil =>
    intro live s h _ _ _ hrun
    cases hrun
    simpa using h
  | cons change l ih =>
    intro live s h hnodup hren hdrop hrun
    rw [List.foldlM_cons] at hrun
    obtain ⟨next, hmove, hrest⟩ := except_bind_eq_ok.1 hrun
    rw [List.map_cons, List.nodup_cons] at hnodup
    -- A change of another kind leaves the numbers where they are.
    have hkeep : change.kind ≠ .dropped → Located content live loc next → Located content
        (live.filter fun k =>
          k ∉ ((change :: l).filter (·.kind = .dropped)).map (·.attnum)) loc s' := by
      intro hkind hnext
      rw [List.filter_cons_of_neg (by simpa using hkind)]
      exact ih hnext hnodup.2 (fun c hc => hren c (List.mem_cons_of_mem _ hc))
        (fun c hc => hdrop c (List.mem_cons_of_mem _ hc)) hrest
    rcases applyMove_cases hmove with ⟨old, new, hkind, hold, hnew, hmove⟩ |
      ⟨old, hkind, hold, hmove⟩ | ⟨rfl, -, hnone⟩
    · refine hkeep (by simp [hkind]) ?_
      exact h.rename_of_absent (hren change List.mem_cons_self hkind _ _ hold hnew) hmove
    · obtain ⟨hin, hloc⟩ := hdrop change List.mem_cons_self hkind
      rw [hold] at hloc
      cases hloc
      have htail := ih (h.drop hin hmove) hnodup.2 (fun c hc hk old new ho hn => ?_)
        (fun c hc hk => ?_)
        hrest
      · rw [List.filter_cons_of_pos (by simpa using hkind), List.map_cons]
        rw [List.filter_filter] at htail
        convert htail using 3 with k
        simp only [List.mem_cons, not_or, Bool.decide_and, decide_not, ne_eq]
        rw [Bool.and_comm]
      · refine (hren c (List.mem_cons_of_mem _ hc) hk old new ho hn).imp_right fun hnone k hk' => ?_
        exact hnone k (List.mem_filter.1 hk').1
      · obtain ⟨hin', hold'⟩ := hdrop c (List.mem_cons_of_mem _ hc) hk
        refine ⟨List.mem_filter.2 ⟨hin', ?_⟩, hold'⟩
        simp only [ne_eq, decide_not, Bool.not_eq_true', decide_eq_false_iff_not]
        exact fun heq => hnodup.1 (heq ▸ List.mem_map_of_mem hc)
    · by_cases hkind : change.kind = .dropped
      · obtain ⟨-, hloc⟩ := hdrop change List.mem_cons_self hkind
        rw [hnone hkind] at hloc
        cases hloc
      · exact hkeep hkind h

omit [DecidableEq V] in
/-- **Additions.** The added numbers become live; nothing else moves. -/
theorem adds (l : List ColumnChange) {n : ℕ} : ∀ {live : List ℕ} {s : Registered C V},
    Located content live loc s → s.table.rows.length = n → (l.map (·.attnum)).Nodup →
    (∀ change ∈ l, change.kind = .added → change.attnum ∉ live ∧
      content change.attnum = List.replicate n none ∧
      change.destinationNewName normalize = some (loc change.attnum) ∧
      change.newDescriptor.isSome) →
    (∀ change ∈ l, change.kind = .added → ∀ k ∈ live, loc k ≠ loc change.attnum) →
    (∀ change ∈ l, change.kind = .added → ∀ change' ∈ l, change'.kind = .added →
      change'.attnum ≠ change.attnum → loc change'.attnum ≠ loc change.attnum) →
    l.foldlM (applyShape normalize types) s = .ok s' →
    Located content (live ++ (l.filter (·.kind = .added)).map (·.attnum)) loc s' := by
  induction l with
  | nil =>
    intro live s h _ _ _ _ _ hrun
    cases hrun
    simpa using h
  | cons change l ih =>
    intro live s h hlength hnodup hadd hfree hdistinct hrun
    rw [List.foldlM_cons] at hrun
    obtain ⟨next, hshape, hrest⟩ := except_bind_eq_ok.1 hrun
    rw [List.map_cons, List.nodup_cons] at hnodup
    have hkeep : change.kind ≠ .added → next = s → Located content
        (live ++ ((change :: l).filter (·.kind = .added)).map (·.attnum)) loc s' := by
      rintro hkind rfl
      rw [List.filter_cons_of_neg (by simpa using hkind)]
      exact ih h hlength hnodup.2 (fun c hc => hadd c (List.mem_cons_of_mem _ hc))
        (fun c hc => hfree c (List.mem_cons_of_mem _ hc))
        (fun c hc hk c' hc' => hdistinct c (List.mem_cons_of_mem _ hc) hk c'
          (List.mem_cons_of_mem _ hc')) hrest
    cases hkind : change.kind with
    | renamed =>
      refine hkeep (by simp [hkind]) ?_
      simp only [applyShape, hkind] at hshape
      exact (Except.ok.inj hshape).symm
    | dropped =>
      refine hkeep (by simp [hkind]) ?_
      simp only [applyShape, hkind] at hshape
      exact (Except.ok.inj hshape).symm
    | typeChanged =>
      refine hkeep (by simp [hkind]) ?_
      simp only [applyShape, hkind] at hshape
      split at hshape
      · contradiction
      · exact convertColumn_eq_ok hshape
      · exact (Except.ok.inj hshape).symm
    | added =>
      obtain ⟨hnotin, hcontent, hnew, hdesc⟩ := hadd change List.mem_cons_self hkind
      obtain ⟨descriptor, hdesc⟩ := Option.isSome_iff_exists.1 hdesc
      simp only [applyShape, hkind, hnew, hdesc] at hshape
      have hnext : Located content (live ++ [change.attnum]) loc next := by
        refine h.add (fun k hk => hfree change List.mem_cons_self hkind k hk) ?_ hshape
        rw [hcontent, ← hlength, List.map_const']
      have hlength' : next.table.rows.length = n := by
        rw [addColumn] at hshape
        split_ifs at hshape
        · exact Except.ok.inj hshape ▸ hlength
        · rw [← Except.ok.inj hshape]
          simpa [alterAdd] using hlength
      have htail := ih hnext hlength' hnodup.2 (fun c hc hk => ?_) (fun c hc hk k hk' => ?_)
        (fun c hc hk c' hc' => hdistinct c (List.mem_cons_of_mem _ hc) hk c'
          (List.mem_cons_of_mem _ hc')) hrest
      · rw [List.filter_cons_of_pos (by simpa using hkind), List.map_cons]
        rwa [List.append_assoc, List.singleton_append] at htail
      · obtain ⟨hnotin', hrest'⟩ := hadd c (List.mem_cons_of_mem _ hc) hk
        refine ⟨fun hin => ?_, hrest'⟩
        rcases List.mem_append.1 hin with hin | hin
        · exact hnotin' hin
        · exact hnodup.1 (List.mem_singleton.1 hin ▸ List.mem_map_of_mem hc)
      · rcases List.mem_append.1 hk' with hk' | hk'
        · exact hfree c (List.mem_cons_of_mem _ hc) hk k hk'
        · rw [List.mem_singleton.1 hk']
          exact hdistinct c (List.mem_cons_of_mem _ hc) hk change List.mem_cons_self hkind
            fun heq => hnodup.1 (heq ▸ List.mem_map_of_mem hc)

omit [DecidableEq V] [ToString C] [DecidableEq C] in
/-- Only the names of the live numbers count. -/
theorem congr_loc (h : Located content live loc s) {loc' : ℕ → C}
    (hloc : ∀ k ∈ live, loc k = loc' k) : Located content live loc' s := by
  have hmap : live.map loc = live.map loc' := List.map_congr_left hloc
  exact ⟨h.present, hmap ▸ h.columns, hmap ▸ h.nodup, fun k hk => hloc k hk ▸ h.data k hk⟩

end Located

/-! ### The number of rows -/

omit [DecidableEq V] [ToString C] in
theorem rows_clearPresence (s : Registered C V) (c : C) :
    (s.clearPresence c).table.rows = s.table.rows := by
  rw [clearPresence]
  split_ifs <;> rfl

omit [ToString C] in
theorem length_rows_renameColumn {old new : C} (h : s.renameColumn old new = .ok s') :
    s'.table.rows.length = s.table.rows.length := by
  rcases renameColumn_cases h with ⟨-, rfl⟩ | ⟨-, -, -, rfl⟩ | ⟨-, -, -, rfl⟩ | ⟨-, rfl⟩
  · rfl
  · simp [renameKeys, alterRename]
  · simp [renameKeys, rows_clearPresence, alterDrop, mergeColumns]
  · rfl

omit [DecidableEq V] in
theorem length_rows_dropColumn {c : C} (h : s.dropColumn c = .ok s') :
    s'.table.rows.length = s.table.rows.length := by
  rw [dropColumn] at h
  split_ifs at h
  · rw [Except.ok.inj h]
  · rw [← Except.ok.inj h]
    simp [alterDrop]

/-- The first loop keeps the number of rows. -/
theorem length_rows_moves (l : List ColumnChange) : ∀ {s : Registered C V},
    l.foldlM (applyMove normalize types) s = .ok s' →
    s'.table.rows.length = s.table.rows.length := by
  induction l with
  | nil =>
    intro s hrun
    cases hrun
    rfl
  | cons change l ih =>
    intro s hrun
    rw [List.foldlM_cons] at hrun
    obtain ⟨next, hmove, hrest⟩ := except_bind_eq_ok.1 hrun
    rw [ih hrest]
    rcases applyMove_cases hmove with ⟨old, new, -, -, -, hmove⟩ | ⟨old, -, -, hmove⟩ | ⟨rfl, -⟩
    · exact length_rows_renameColumn hmove
    · exact length_rows_dropColumn hmove
    · rfl

end Registered

/-! ### Identity -/

section Identity

variable {before after : List SourceColumn} {types : Registered.TypeRules C} {s s' : Registered C V}

/-- **Evolution by identity.** The columns are the ones of the new catalog; a surviving number has
its data under its new name, and an added one has none. -/
structure PreservesIdentity (normalize : String → C) (before after : List SourceColumn)
    (s s' : Registered C V) : Prop where
  columns : s'.table.columns.Perm (after.map fun a => normalize a.name)
  survives : ∀ b ∈ before, ∀ a ∈ after, b.attnum = a.attnum →
    s'.column (normalize a.name) = s.column (normalize b.name)
  added : ∀ a ∈ after, a.attnum ∉ before.map (·.attnum) →
    ∀ value ∈ s'.column (normalize a.name), value = none

/-- No surviving column takes the old name of another surviving column. Columns that are dropped or
added between the listings may leave or take any name; only among those in both does no name pass
from one to another. -/
def NoNamePassedOn (normalize : String → C) (before after : List SourceColumn) : Prop :=
  ∀ a ∈ after, ∀ b ∈ before, a.attnum ∈ before.map (·.attnum) → b.attnum ∈ after.map (·.attnum) →
    a.attnum ≠ b.attnum → normalize a.name ≠ normalize b.name

/-- The destination name of a number. -/
def nameAt (normalize : String → C) (columns : List SourceColumn) (k : ℕ) : C :=
  normalize ((columnAt columns k).elim "" (·.name))

omit [DecidableEq C] [ToString C] in
theorem nameAt_of_some {columns : List SourceColumn} {k : ℕ} {column : SourceColumn}
    (h : columnAt columns k = some column) :
      nameAt normalize columns k = normalize column.name := by
  rw [nameAt, h, Option.elim_some]

omit [DecidableEq C] [ToString C] in
theorem DistinctColumns.nameAt_of_mem {columns : List SourceColumn} {column : SourceColumn}
    (h : DistinctColumns normalize columns) (hcolumn : column ∈ columns) :
    nameAt normalize columns column.attnum = normalize column.name :=
  nameAt_of_some ((columnAt_eq_some_iff h.attnums).2 ⟨hcolumn, rfl⟩)

omit [DecidableEq C] [ToString C] in
theorem DistinctColumns.map_nameAt {columns : List SourceColumn}
    (h : DistinctColumns normalize columns) :
    (columns.map (·.attnum)).map (nameAt normalize columns) =
      columns.map fun column => normalize column.name := by
  rw [List.map_map]
  exact List.map_congr_left fun column hcolumn => h.nameAt_of_mem hcolumn

omit [DecidableEq C] [ToString C] in
/-- Two numbers of a listing have two names. -/
theorem DistinctColumns.nameAt_inj {columns : List SourceColumn}
    (h : DistinctColumns normalize columns) {j k : ℕ} (hj : j ∈ columns.map (·.attnum))
    (hk : k ∈ columns.map (·.attnum))
    (heq : nameAt normalize columns j = nameAt normalize columns k) :
    j = k :=
  List.inj_on_of_nodup_map (h.map_nameAt ▸ h.names) hj hk heq

omit [DecidableEq C] [ToString C] in
theorem noNamePassedOn_iff (hbefore : DistinctColumns normalize before)
    (hafter : DistinctColumns normalize after) :
    NoNamePassedOn normalize before after ↔
      ∀ i j, i ∈ before.map (·.attnum) → i ∈ after.map (·.attnum) → j ∈ before.map (·.attnum) →
        j ∈ after.map (·.attnum) → i ≠ j →
        nameAt normalize after i ≠ nameAt normalize before j := by
  constructor
  · rintro h i j hib hia hjb hja hne
    obtain ⟨a, ha, rfl⟩ := List.mem_map.1 hia
    obtain ⟨b, hb, rfl⟩ := List.mem_map.1 hjb
    rw [hafter.nameAt_of_mem ha, hbefore.nameAt_of_mem hb]
    exact h a ha b hb hib hja hne
  · intro h a ha b hb hib hja hne
    have hname := h a.attnum b.attnum hib (List.mem_map_of_mem ha) (List.mem_map_of_mem hb) hja hne
    rwa [hafter.nameAt_of_mem ha, hbefore.nameAt_of_mem hb] at hname

/-! ### The changes of a diff, by name -/

variable {change : ColumnChange}

variable (normalize) in
omit [DecidableEq C] [ToString C] in
theorem renamed_names (h : change ∈ diffColumns before after) (hkind : change.kind = .renamed) :
    change.attnum ∈ before.map (·.attnum) ∧ change.attnum ∈ after.map (·.attnum) ∧
      change.destinationOldName normalize = some (nameAt normalize before change.attnum) ∧
      change.destinationNewName normalize = some (nameAt normalize after change.attnum) := by
  obtain ⟨b, a, hb, ha, -, hold, hnew⟩ := renamed_of_mem h hkind
  refine ⟨?_, ?_, ?_, ?_⟩
  · by_contra hnot
    simp [columnAt_eq_none_iff.2 hnot] at hb
  · by_contra hnot
    simp [columnAt_eq_none_iff.2 hnot] at ha
  · rw [ColumnChange.destinationOldName, hold, nameAt_of_some hb, Option.map_some]
  · rw [ColumnChange.destinationNewName, hnew, nameAt_of_some ha, Option.map_some]

omit [DecidableEq C] [ToString C] in
theorem dropped_names (h : change ∈ diffColumns before after) (hkind : change.kind = .dropped) :
    change.attnum ∈ before.map (·.attnum) ∧ change.attnum ∉ after.map (·.attnum) ∧
      change.destinationOldName normalize = some (nameAt normalize before change.attnum) := by
  obtain ⟨b, hb, ha, hold⟩ := dropped_of_mem h hkind
  refine ⟨?_, columnAt_eq_none_iff.1 ha, ?_⟩
  · by_contra hnot
    simp [columnAt_eq_none_iff.2 hnot] at hb
  · rw [ColumnChange.destinationOldName, hold, nameAt_of_some hb, Option.map_some]

omit [DecidableEq C] [ToString C] in
theorem added_names (h : change ∈ diffColumns before after) (hkind : change.kind = .added) :
    change.attnum ∉ before.map (·.attnum) ∧ change.attnum ∈ after.map (·.attnum) ∧
      change.destinationNewName normalize = some (nameAt normalize after change.attnum) ∧
      change.newDescriptor.isSome := by
  obtain ⟨a, hb, ha, hnew, hdesc⟩ := added_of_mem h hkind
  refine ⟨columnAt_eq_none_iff.1 hb, ?_, ?_, ?_⟩
  · by_contra hnot
    simp [columnAt_eq_none_iff.2 hnot] at ha
  · rw [ColumnChange.destinationNewName, hnew, nameAt_of_some ha, Option.map_some]
  · rw [hdesc, Option.isSome_some]

omit [DecidableEq C] [ToString C] in
/-- A surviving number whose name changes is renamed. -/
theorem mem_renamesOf_of_ne {k : ℕ} (hb : k ∈ before.map (·.attnum)) (ha : k ∈ after.map (·.attnum))
    (hne : nameAt normalize before k ≠ nameAt normalize after k) :
    ∃ change ∈ renamesOf (diffColumns before after), change.attnum = k := by
  obtain ⟨b, hcolb⟩ := Option.isSome_iff_exists.1 (Option.isSome_iff_ne_none.2
    fun hnone => columnAt_eq_none_iff.1 hnone hb)
  obtain ⟨a, hcola⟩ := Option.isSome_iff_exists.1 (Option.isSome_iff_ne_none.2
    fun hnone => columnAt_eq_none_iff.1 hnone ha)
  have hname : b.name ≠ a.name := fun heq =>
    hne (by rw [nameAt_of_some hcolb, nameAt_of_some hcola, heq])
  obtain ⟨change, hin, hkind, hattnum, -⟩ := exists_renamed hcolb hcola hname
  exact ⟨change, List.mem_filter.2 ⟨hin, by simpa using hkind⟩, hattnum⟩

/-- A number of the old catalog that the new one does not have is dropped. -/
theorem mem_dropped_iff {k : ℕ} :
    (∃ change ∈ diffColumns before after, change.kind = .dropped ∧ change.attnum = k) ↔
      k ∈ before.map (·.attnum) ∧ k ∉ after.map (·.attnum) := by
  constructor
  · rintro ⟨change, hin, hkind, rfl⟩
    have hnames : change.attnum ∈ before.map (·.attnum) ∧ change.attnum ∉ after.map (·.attnum) ∧
      change.destinationOldName id = some _ := dropped_names hin hkind
    exact ⟨hnames.1, hnames.2.1⟩
  · rintro ⟨hb, ha⟩
    obtain ⟨b, hcolb⟩ := Option.isSome_iff_exists.1 (Option.isSome_iff_ne_none.2
      fun hnone => columnAt_eq_none_iff.1 hnone hb)
    obtain ⟨change, hin, hkind, hattnum, -⟩ := exists_dropped hcolb (columnAt_eq_none_iff.2 ha)
    exact ⟨change, hin, hkind, hattnum⟩

/-- A number of the new catalog that the old one does not have is added. -/
theorem mem_added_iff {k : ℕ} :
    (∃ change ∈ diffColumns before after, change.kind = .added ∧ change.attnum = k) ↔
      k ∉ before.map (·.attnum) ∧ k ∈ after.map (·.attnum) := by
  constructor
  · rintro ⟨change, hin, hkind, rfl⟩
    have hnames : change.attnum ∉ before.map (·.attnum) ∧ change.attnum ∈ after.map (·.attnum) ∧
      change.destinationNewName id = some _ ∧ _ := added_names hin hkind
    exact ⟨hnames.1, hnames.2.1⟩
  · rintro ⟨hb, ha⟩
    obtain ⟨a, hcola⟩ := Option.isSome_iff_exists.1 (Option.isSome_iff_ne_none.2
      fun hnone => columnAt_eq_none_iff.1 hnone ha)
    obtain ⟨change, hin, hkind, hattnum, -⟩ := exists_added (columnAt_eq_none_iff.2 hb) hcola
    exact ⟨change, hin, hkind, hattnum⟩

omit [ToString C] in
theorem mem_earlyDrops_iff {changes : List ColumnChange} :
    change ∈ earlyDrops normalize changes ↔ change ∈ changes ∧ change.kind = .dropped ∧
      ∃ rename ∈ renamesOf changes,
        rename.destinationNewName normalize = change.destinationOldName normalize := by
  simp [earlyDrops]

omit [ToString C] in
theorem mem_lateChanges_iff {changes : List ColumnChange} :
    change ∈ lateChanges normalize changes ↔
      change ∈ changes ∧ change ∉ earlyDrops normalize changes := by
  simp [lateChanges]

theorem mem_renamesOf_iff {changes : List ColumnChange} :
    change ∈ renamesOf changes ↔ change ∈ changes ∧ change.kind = .renamed := by
  simp [renamesOf]

end Identity

end CdcFlight
