import CdcFlight.Schema.Evolution

/-!
# What a catalog diff contains

The changes of `diff_columns`, read by attribute number: one change at most for each number, of the
kind that the two catalog entries call for, with their names.

## Main definitions

* `CdcFlight.DistinctColumns`: a catalog listing without repeated numbers or destination names.

## Main results

* `CdcFlight.mem_diffColumns_iff`: a change is in the diff exactly when its number calls for it.
* `CdcFlight.renamed_of_mem`, `CdcFlight.dropped_of_mem`, `CdcFlight.added_of_mem`: the changes of
  each kind.
-/

namespace CdcFlight

open Lib

variable {C : Type} {normalize : String → C} {before after : List SourceColumn}
  {change : ColumnChange}

/-- A catalog listing: no attribute number twice, and no destination name twice. PostgreSQL keeps
the numbers and the names of a relation distinct; different names have to stay different once they
are normalized. -/
structure DistinctColumns (normalize : String → C) (columns : List SourceColumn) : Prop where
  attnums : (columns.map (·.attnum)).Nodup
  names : (columns.map fun column => normalize column.name).Nodup

omit normalize in
theorem columnAt_eq_some_iff {columns : List SourceColumn} (h : (columns.map (·.attnum)).Nodup)
    {k : ℕ} {column : SourceColumn} :
    columnAt columns k = some column ↔ column ∈ columns ∧ column.attnum = k := by
  constructor
  · intro hfind
    exact ⟨List.mem_reverse.1 (List.mem_of_find?_eq_some hfind), by
      simpa using List.find?_some hfind⟩
  · rintro ⟨hmem, rfl⟩
    cases hfind : columnAt columns column.attnum with
    | none =>
      have hnone := List.find?_eq_none.1 hfind column (List.mem_reverse.2 hmem)
      simp at hnone
    | some found =>
      have hfound : found ∈ columns := List.mem_reverse.1 (List.mem_of_find?_eq_some hfind)
      have hattnum : found.attnum = column.attnum := by simpa using List.find?_some hfind
      rw [List.inj_on_of_nodup_map h hfound hmem hattnum]

theorem columnAt_eq_none_iff {columns : List SourceColumn} {k : ℕ} :
    columnAt columns k = none ↔ k ∉ columns.map (·.attnum) := by
  rw [columnAt, List.find?_eq_none]
  simp [eq_comm]

/-- The change of a number carries that number. -/
theorem changeOf_attnum {k : ℕ} {previous current : Option SourceColumn}
    (h : changeOf k previous current = some change) : change.attnum = k := by
  rcases previous with _ | previous <;> rcases current with _ | current <;>
    simp only [changeOf] at h
  · cases h
  · cases h
    rfl
  · cases h
    rfl
  · split_ifs at h <;> cases h <;> rfl

theorem mem_diffColumns_iff : change ∈ diffColumns before after ↔
    changeOf change.attnum (columnAt before change.attnum) (columnAt after change.attnum) =
      some change := by
  rw [diffColumns, List.mem_filterMap]
  constructor
  · rintro ⟨k, -, h⟩
    rw [changeOf_attnum h]
    exact h
  · intro h
    refine ⟨change.attnum, ?_, h⟩
    rw [attnums, List.mem_insertionSort, List.mem_dedup, List.mem_append]
    by_contra hnot
    rw [not_or] at hnot
    rw [columnAt_eq_none_iff.2 hnot.1, columnAt_eq_none_iff.2 hnot.2] at h
    cases h

/-- The diff has one change for a number. -/
theorem nodup_attnums_diffColumns (before after : List SourceColumn) :
    ((diffColumns before after).map (·.attnum)).Nodup := by
  have hsub : ∀ l : List ℕ, ((l.filterMap fun k =>
      changeOf k (columnAt before k) (columnAt after k)).map (·.attnum)).Sublist l := by
    intro l
    induction l with
    | nil => exact List.Sublist.refl _
    | cons k l ih =>
      rw [List.filterMap_cons]
      split
      · exact ih.cons k
      · next change hchange =>
        rw [List.map_cons, changeOf_attnum hchange]
        exact ih.cons_cons k
  have hnodup : (attnums before after).Nodup :=
    (List.perm_insertionSort _ _).nodup_iff.2 (List.nodup_dedup _)
  exact (hsub _).nodup hnodup

/-- The diff is in the order of the numbers. -/
theorem pairwise_attnum_diffColumns (before after : List SourceColumn) :
    (diffColumns before after).Pairwise (·.attnum < ·.attnum) := by
  have hsorted : (attnums before after).Pairwise (· ≤ ·) := List.pairwise_insertionSort _ _
  have hnodup : (attnums before after).Nodup :=
    (List.perm_insertionSort _ _).nodup_iff.2 (List.nodup_dedup _)
  have hlt : (attnums before after).Pairwise (· < ·) :=
    (hsorted.and hnodup).imp fun hle => lt_of_le_of_ne hle.1 hle.2
  refine List.Pairwise.filterMap _ (fun k k' hk change hchange change' hchange' => ?_) hlt
  rw [changeOf_attnum hchange, changeOf_attnum hchange']
  exact hk

/-- The four kinds of change. -/
theorem changeOf_cases {k : ℕ} {previous current : Option SourceColumn}
    (h : changeOf k previous current = some change) :
    (∃ a, previous = none ∧ current = some a ∧ change.kind = .added ∧
      change.newName = some a.name ∧ change.newDescriptor = some a.descriptor) ∨
    (∃ b, previous = some b ∧ current = none ∧ change.kind = .dropped ∧
      change.oldName = some b.name) ∨
    (∃ b a, previous = some b ∧ current = some a ∧ b.name ≠ a.name ∧ change.kind = .renamed ∧
      change.oldName = some b.name ∧ change.newName = some a.name) ∨
    (∃ b a, previous = some b ∧ current = some a ∧ b.name = a.name ∧
      change.kind = .typeChanged) := by
  rcases previous with _ | b <;> rcases current with _ | a <;> simp only [changeOf] at h
  · cases h
  · cases h
    exact Or.inl ⟨a, rfl, rfl, rfl, rfl, rfl⟩
  · cases h
    exact Or.inr (Or.inl ⟨b, rfl, rfl, rfl, rfl⟩)
  · split_ifs at h with hname htype
    · cases h
      exact Or.inr (Or.inr (Or.inl ⟨b, a, rfl, rfl, hname, rfl, rfl, rfl⟩))
    · cases h
      exact Or.inr (Or.inr (Or.inr ⟨b, a, rfl, rfl, not_not.1 hname, rfl⟩))

theorem renamed_of_mem (h : change ∈ diffColumns before after) (hkind : change.kind = .renamed) :
    ∃ b a, columnAt before change.attnum = some b ∧ columnAt after change.attnum = some a ∧
      b.name ≠ a.name ∧ change.oldName = some b.name ∧ change.newName = some a.name := by
  obtain ⟨a, -, -, hk, -⟩ | ⟨b, -, -, hk, -⟩ | ⟨b, a, hb, ha, hname, -, hold, hnew⟩ |
    ⟨b, a, -, -, -, hk⟩ := changeOf_cases (mem_diffColumns_iff.1 h)
  · simp [hk] at hkind
  · simp [hk] at hkind
  · exact ⟨b, a, hb, ha, hname, hold, hnew⟩
  · simp [hk] at hkind

theorem dropped_of_mem (h : change ∈ diffColumns before after) (hkind : change.kind = .dropped) :
    ∃ b, columnAt before change.attnum = some b ∧ columnAt after change.attnum = none ∧
      change.oldName = some b.name := by
  obtain ⟨a, -, -, hk, -⟩ | ⟨b, hb, ha, -, hold⟩ | ⟨b, a, -, -, -, hk, -⟩ | ⟨b, a, -, -, -, hk⟩ :=
    changeOf_cases (mem_diffColumns_iff.1 h)
  · simp [hk] at hkind
  · exact ⟨b, hb, ha, hold⟩
  · simp [hk] at hkind
  · simp [hk] at hkind

theorem added_of_mem (h : change ∈ diffColumns before after) (hkind : change.kind = .added) :
    ∃ a, columnAt before change.attnum = none ∧ columnAt after change.attnum = some a ∧
      change.newName = some a.name ∧ change.newDescriptor = some a.descriptor := by
  obtain ⟨a, hb, ha, -, hnew, hdesc⟩ | ⟨b, -, -, hk, -⟩ | ⟨b, a, -, -, -, hk, -⟩ |
    ⟨b, a, -, -, -, hk⟩ := changeOf_cases (mem_diffColumns_iff.1 h)
  · exact ⟨a, hb, ha, hnew, hdesc⟩
  · simp [hk] at hkind
  · simp [hk] at hkind
  · simp [hk] at hkind

/-- A number on both sides with two names has a rename. -/
theorem exists_renamed {k : ℕ} {b a : SourceColumn} (hb : columnAt before k = some b)
    (ha : columnAt after k = some a) (hname : b.name ≠ a.name) :
    ∃ change ∈ diffColumns before after, change.kind = .renamed ∧ change.attnum = k ∧
      change.oldName = some b.name ∧ change.newName = some a.name := by
  refine ⟨{ kind := .renamed, attnum := k, oldName := b.name, newName := a.name
            typeChanged := b.descriptor.fingerprint ≠ a.descriptor.fingerprint
            oldDescriptor := b.descriptor, newDescriptor := a.descriptor },
    mem_diffColumns_iff.2 ?_, rfl, rfl, rfl, rfl⟩
  rw [hb, ha, changeOf, if_pos hname]

theorem exists_dropped {k : ℕ} {b : SourceColumn} (hb : columnAt before k = some b)
    (ha : columnAt after k = none) :
    ∃ change ∈ diffColumns before after, change.kind = .dropped ∧ change.attnum = k ∧
      change.oldName = some b.name := by
  refine ⟨{ kind := .dropped, attnum := k, oldName := b.name, oldDescriptor := b.descriptor },
    mem_diffColumns_iff.2 ?_, rfl, rfl, rfl⟩
  rw [hb, ha, changeOf]

theorem exists_added {k : ℕ} {a : SourceColumn} (hb : columnAt before k = none)
    (ha : columnAt after k = some a) :
    ∃ change ∈ diffColumns before after, change.kind = .added ∧ change.attnum = k ∧
      change.newName = some a.name ∧ change.newDescriptor = some a.descriptor := by
  refine ⟨{ kind := .added, attnum := k, newName := a.name, newDescriptor := a.descriptor },
    mem_diffColumns_iff.2 ?_, rfl, rfl, rfl, rfl⟩
  rw [hb, ha, changeOf]

end CdcFlight
