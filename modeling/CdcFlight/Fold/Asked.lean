import CdcFlight.Fold.Operations
import CdcFlight.Lib.SameRun

/-!
# What a fold asks of the destination

The fold of a keyed table asks the destination about the keys of updates and deletes only, and of
incremental reads, and after a truncate about none. Two probes that answer alike about these keys
lead to the same fold. Under a key about which it does not ask, the fold never comes to believe that
there is no row left.

## Main definitions

* `CdcFlight.Probe.AgreeOn`: two probes answer alike about some keys.
* `CdcFlight.PendingRecord.Asks`: the keys about which the fold of a record may ask.
* `CdcFlight.Tidy`: what holds of a fold that asks about these keys only.

## Main results

* `CdcFlight.foldGroup_sameRun`: probes that agree on the keys that are asked lead to the same fold.
-/

namespace CdcFlight

open Lib

variable {C V : Type}

/-- Two probes answer alike about some keys of a table. -/
structure Probe.AgreeOn (probe probe' : Probe C V) (columns : List C)
    (keys : Set (List (Option V))) : Prop where
  startExists : ∀ (item : TableWork C V) (k : Token V), item.keyColumns = columns →
    rawKey k ∈ keys → probe.startExists item k = probe'.startExists item k
  startMatches : ∀ (item : TableWork C V) (k : Token V) (image : Image C V),
    item.keyColumns = columns → rawKey k ∈ keys →
    probe.startMatches item k image = probe'.startMatches item k image

variable [DecidableEq C]

/-- The keys about which the fold of a record may ask: those of an incremental read, of an update,
whose old key counts when the before-image shows it, and of a delete. -/
inductive PendingRecord.Asks (columns : List C) (e : PendingRecord C V) : List (Option V) → Prop
  | incremental (h : e.incremental = true) : Asks columns e (columns.map (columnOf e.key))
  | update (h : e.op = some .update) : Asks columns e (columns.map (columnOf e.key))
  | moved (h : e.op = some .update)
      (hshown : ∀ c ∈ columns, (e.before.getD ∅).contains c = true) :
      Asks columns e (columns.map (columnOf e.before))
  | delete (h : e.op = some .delete) : Asks columns e (columns.map (columnOf e.before))

variable [DecidableEq V]

/-- **A fold that has asked about these keys only.** It is one of a keyed table with these key
columns; where it believes in no row under a key, it has asked about the key or met a truncate; and
after a truncate no row of the destination is left in it. -/
structure Tidy (columns : List C) (keys : Set (List (Option V))) (item : TableWork C V) : Prop where
  keyless : item.keyless = false
  keyColumns : item.identified = true → item.keyColumns = columns
  emptied : ∀ k, item.live.get? k = some [] → item.truncated = true ∨ rawKey k ∈ keys
  started : item.truncated = true → ∀ k, Entry.start ∉ item.entriesAt k

/-- A tidy fold in the middle of a record, which may ask about the keys `asked`. -/
structure Asking (columns : List C) (keys asked : Set (List (Option V)))
    (item : TableWork C V) : Prop extends Tidy columns keys item where
  identified : item.identified = true
  asked_subset : item.truncated = true ∨ asked ⊆ keys

variable {columns : List C} {keys asked : Set (List (Option V))} {item item' : TableWork C V}
  {probe probe' : Probe C V} {k : Token V}

namespace Asking

omit [DecidableEq C] in
theorem columns_eq (h : Asking columns keys asked item) : item.keyColumns = columns :=
  h.keyColumns h.identified

omit [DecidableEq C] in
/-- A key that may be asked about is one of the keys, unless no probe is asked any more. -/
theorem covers (h : Asking columns keys asked item) (hk : rawKey k ∈ asked) :
    item.truncated = true ∨ rawKey k ∈ keys :=
  h.asked_subset.imp_right fun hsub => hsub hk

omit [DecidableEq C] in
/-- A state with the same rows and the same identity. -/
theorem congr (h : Asking columns keys asked item) (hlive : item'.live = item.live)
    (htruncated : item'.truncated = item.truncated) (hkeyless : item'.keyless = item.keyless)
    (hidentified : item'.identified = item.identified)
    (hcolumns : item'.keyColumns = item.keyColumns) : Asking columns keys asked item' where
  keyless := hkeyless.trans h.keyless
  keyColumns _ := hcolumns.trans h.columns_eq
  emptied k hk := by
    rw [htruncated]
    exact h.emptied k (hlive ▸ hk)
  started htr k := by
    have hentries : item'.entriesAt k = item.entriesAt k := by
      rw [TableWork.entriesAt, TableWork.entriesAt, hlive]
    rw [hentries]
    exact h.started (htruncated ▸ htr) k
  identified := hidentified.trans h.identified
  asked_subset := by
    rw [htruncated]
    exact h.asked_subset

omit [DecidableEq C] in
theorem setEntries (h : Asking columns keys asked item) {entries : List (Entry C V)}
    (hempty : entries = [] → item.truncated = true ∨ rawKey k ∈ keys)
    (hstart : item.truncated = true → Entry.start ∉ entries) :
    Asking columns keys asked (item.setEntries k entries) where
  keyless := h.keyless
  keyColumns := h.keyColumns
  emptied j hj := by
    rw [Layout.get?_setEntries] at hj
    split_ifs at hj with heq
    · rw [heq]
      exact hempty (Option.some.inj hj)
    · exact h.emptied j hj
  started htr j := by
    rw [TableWork.entriesAt, Layout.get?_setEntries]
    split_ifs
    · exact hstart htr
    · exact h.started htr j
  identified := h.identified
  asked_subset := h.asked_subset

omit [DecidableEq C] in
theorem seed (h : Asking columns keys asked item) (k : Token V) :
    Asking columns keys asked (item.seed k) := by
  unfold TableWork.seed
  split
  · exact h
  · refine h.setEntries (fun hnil => Or.inl ?_) fun htr => ?_
    · by_contra htr
      rw [if_neg htr] at hnil
      cases hnil
    · rw [if_pos htr]
      exact List.not_mem_nil

omit [DecidableEq C] in
theorem resolveStart (h : Asking columns keys asked item) (hk : rawKey k ∈ asked) :
    Asking columns keys asked (item.resolveStart probe k) := by
  unfold TableWork.resolveStart
  split
  · rename_i entries hentries
    have htail : item.truncated = true → Entry.start ∉ entries := fun htr hmem =>
      h.started htr k (hentries ▸ List.mem_cons_of_mem _ hmem)
    split_ifs
    · exact h.setEntries (fun _ => h.covers hk) htail
    · have hcache : Asking columns keys asked (item.cacheStart k
          ((item.startPresent.get? k).getD (probe.startExists item k))) :=
        h.congr rfl rfl rfl rfl rfl
      dsimp only
      split_ifs
      · exact hcache
      · exact hcache.setEntries (fun _ => h.covers hk) htail
  · exact h

theorem settleStart (h : Asking columns keys asked item) (hk : rawKey k ∈ asked) :
    Asking columns keys asked (item.settleStart probe k) := by
  unfold TableWork.settleStart
  dsimp only
  split_ifs
  · exact (h.seed k).resolveStart hk
  · exact h.seed k

omit [DecidableEq C] in
/-- A row that is placed under a key leaves rows under it. -/
theorem place (h : Asking columns keys asked item) (p : RowPatch C V) (source : Option (Token V)) :
    Asking columns keys asked (item.place k p source) := by
  have hcleared : Asking columns keys asked (item.clearTombstone k) :=
    h.congr rfl rfl rfl rfl rfl
  have hseeded := hcleared.seed k
  unfold TableWork.place
  refine (hseeded.setEntries (fun hnil => ?_) fun htr hmem => ?_).congr rfl rfl rfl rfl rfl
  · exact absurd hnil (by simp)
  · rcases List.mem_append.1 hmem with hmem | hmem
    · exact hseeded.started htr k hmem
    · cases source <;> simp at hmem

omit [DecidableEq C] in
/-- The probes agree on whether `START` stands for a row. -/
theorem resolveStart_eq (h : Asking columns keys asked item)
    (hagree : probe.AgreeOn probe' columns keys) (hk : rawKey k ∈ asked) :
    item.resolveStart probe k = item.resolveStart probe' k := by
  unfold TableWork.resolveStart
  split
  · split_ifs with htr
    · rfl
    · rw [hagree.startExists item k h.columns_eq ((h.covers hk).resolve_left htr)]
  · rfl

theorem settleStart_eq (h : Asking columns keys asked item)
    (hagree : probe.AgreeOn probe' columns keys) (hk : rawKey k ∈ asked) :
    item.settleStart probe k = item.settleStart probe' k := by
  unfold TableWork.settleStart
  dsimp only
  rw [(h.seed k).resolveStart_eq hagree hk]

/-- The probes agree on the entries that match an image. -/
theorem matchesEntry_eq (h : Asking columns keys asked item)
    (hagree : probe.AgreeOn probe' columns keys) (hk : rawKey k ∈ asked) (image : Image C V)
    {e : Entry C V} (he : e ∈ item.entriesAt k) :
    matchesEntry probe item k image e = matchesEntry probe' item k image e := by
  cases e with
  | start =>
    have htr : ¬ item.truncated = true := fun htr => h.started htr k he
    rw [matchesEntry, matchesEntry,
      hagree.startMatches item k image h.columns_eq ((h.covers hk).resolve_left htr)]
  | patch p => rfl
  | move source target p => rfl

end Asking

/-! ### Attribution -/

section Programs

variable [ColumnValue V] {before : BeforeImage C V} {what : Attributed} {e : PendingRecord C V}
  {eventId : String} {p : RowPatch C V}

theorem attributeAmong_eq (h : Asking columns keys asked item)
    (hagree : probe.AgreeOn probe' columns keys) (hk : rawKey k ∈ asked) :
    (attributeAmong probe k before what).run item =
      (attributeAmong probe' k before what).run item := by
  have hmatched (image : Image C V) :
      ((List.range (item.entriesAt k).length).filter fun i =>
        ((item.entriesAt k)[i]?).any (matchesEntry probe item k image)) =
      (List.range (item.entriesAt k).length).filter fun i =>
        ((item.entriesAt k)[i]?).any (matchesEntry probe' item k image) := by
    refine List.filter_congr fun i _ => ?_
    cases hi : (item.entriesAt k)[i]? with
    | none => rfl
    | some e =>
      rw [Option.any_some, Option.any_some,
        h.matchesEntry_eq hagree hk image (List.mem_of_getElem? hi)]
  unfold attributeAmong
  simp only [EStateM.run_bind, EStateM.run_get, hmatched]

theorem targetEntry_sameRun (h : Asking columns keys asked item)
    (hagree : probe.AgreeOn probe' columns keys) (hk : rawKey k ∈ asked) :
    SameRun (targetEntry probe k before what) (targetEntry probe' k before what)
      (fun _ => Asking columns keys asked) item := by
  have hresolved : Asking columns keys asked (Layout.resolveMany probe' k item) := by
    unfold Layout.resolveMany
    split_ifs
    · exact h.resolveStart hk
    · exact h
  have heq : Layout.resolveMany probe k item = Layout.resolveMany probe' k item := by
    unfold Layout.resolveMany
    rw [h.resolveStart_eq hagree hk]
  refine ⟨?_, wp_true_iff.2 fun index item' hrun => ?_⟩
  · rw [Layout.run_targetEntry, Layout.run_targetEntry, heq]
    split
    · rfl
    · rfl
    · exact attributeAmong_eq hresolved hagree hk
  · rw [Layout.targetEntry_state hrun]
    exact hresolved

/-! ### Updates and deletes -/

omit [ColumnValue V] [DecidableEq V] in
/-- An update leaves no destination row in place of the one it found. -/
theorem start_notMem_modify {entries : List (Entry C V)} (h : Entry.start ∉ entries) {i : ℕ} :
    Entry.start ∉ entries.modify i (Entry.updated p) := by
  intro hmem
  obtain ⟨j, hj⟩ := List.mem_iff_getElem?.1 hmem
  rw [List.getElem?_modify, Option.map_eq_map, Option.map_eq_some_iff] at hj
  obtain ⟨e, he, hstart⟩ := hj
  split_ifs at hstart
  · cases e <;> cases hstart
  · exact h (hstart ▸ List.mem_of_getElem? he)

omit [ColumnValue V] [DecidableEq C] [DecidableEq V] in
theorem missingToastBase_sameRun {α : Type} {reason : String} {Q : α → TableWork C V → Prop} :
    SameRun (missingToastBase reason) (missingToastBase reason) Q item :=
  .get_bind (.of_throw _)

theorem update_sameRun (h : Asking columns keys asked item)
    (hagree : probe.AgreeOn probe' columns keys) (hk : rawKey k ∈ asked) :
    SameRun (update probe k p before) (update probe' k p before)
      (fun _ => Asking columns keys asked) item := by
  unfold update
  refine .get_bind (.ite (fun _ => missingToastBase_sameRun) fun _ => ?_)
  rw [h.settleStart_eq hagree hk]
  refine SameRun.bind (.of_wp (Q := fun _ => Asking columns keys asked)
    ((wp_set _).2 (h.settleStart hk))) fun _ item₁ h₁ => ?_
  refine .get_bind (.ite (fun _ => .get_bind (.ite (fun _ => ?_) fun _ =>
    missingToastBase_sameRun)) fun _ => ?_)
  · exact .of_modify rfl (h₁.place _ _)
  · refine (targetEntry_sameRun h₁ hagree hk).bind fun index item₂ h₂ => ?_
    cases index with
    | none =>
      have hset : Asking columns keys asked (item₂.setEntries k [.patch p]) :=
        h₂.setEntries (fun hnil => by cases hnil) (by simp)
      exact .of_modify rfl (hset.congr rfl rfl rfl rfl rfl)
    | some i =>
      have hset : Asking columns keys asked (item₂.setEntries k
          ((item₂.entriesAt k).modify i (Entry.updated p))) :=
        h₂.setEntries (fun _ => h₂.covers hk) fun htr => start_notMem_modify (h₂.started htr k)
      exact .of_modify rfl (hset.congr rfl rfl rfl rfl rfl)

theorem remove_sameRun (h : Asking columns keys asked item)
    (hagree : probe.AgreeOn probe' columns keys) (hk : rawKey k ∈ asked) :
    SameRun (remove probe k before) (remove probe' k before)
      (fun _ => Asking columns keys asked) item := by
  unfold remove
  refine SameRun.bind (.of_modify (Q := fun _ => Asking columns keys asked)
    (h.settleStart_eq hagree hk) (h.settleStart hk)) fun _ item₁ h₁ => ?_
  refine (targetEntry_sameRun h₁ hagree hk).bind fun index item₂ h₂ => .get_bind (.of_wp ?_)
  have hstart : item₂.truncated = true →
      Entry.start ∉ index.elim [] (item₂.entriesAt k).eraseIdx := by
    intro htr hmem
    cases index with
    | none => cases hmem
    | some i => exact h₂.started htr k (List.mem_of_mem_eraseIdx hmem)
  have hleft := h₂.setEntries (fun _ => h₂.covers hk) hstart
  cases index with
  | none =>
    simp only [wp_bind, wp_modify]
    exact wp_ite (fun _ => hleft.congr rfl rfl rfl rfl rfl) fun _ =>
      hleft.congr rfl rfl rfl rfl rfl
  | some i =>
    simp only [wp_bind, wp_modify]
    exact wp_ite (fun _ => hleft.congr rfl rfl rfl rfl rfl) fun _ =>
      hleft.congr rfl rfl rfl rfl rfl

/-! ### Records -/

variable [ToString C]

omit [ColumnValue V] [DecidableEq V] in
/-- A component of a fold key has the value of its column. -/
theorem wp_keyComponent [DecidableEq V] (h : Asking columns keys asked item)
    (descriptors : Dict C Descriptor) (updateNative : Bool) (q : C × Option V) :
    wp (keyComponent descriptors updateNative q)
      (fun a item' => Asking columns keys asked item' ∧ a.2 = q.2) (fun _ => True) item := by
  unfold keyComponent
  simp only [wp_bind, wp_get]
  split
  · trivial
  · refine wp_ite (fun _ => ?_) fun _ => ⟨h, rfl⟩
    rw [wp_bind, wp_set]
    exact wp_ite (fun _ => ⟨h.congr rfl rfl rfl rfl rfl, rfl⟩) fun _ => trivial

omit [ColumnValue V] in
/-- The fold key of an event has the values of the key columns. -/
theorem keyToken_sameRun (h : Asking columns keys asked item) (values : C → Option V)
    (descriptors : Dict C Descriptor) (updateNative : Bool) :
    SameRun (keyToken values descriptors updateNative) (keyToken values descriptors updateNative)
      (fun key item' => Asking columns keys asked item' ∧ rawKey key = columns.map values)
      item := by
  have hcomponents (cs : List C) {item : TableWork C V} (h : Asking columns keys asked item) :
      wp ((cs.map fun c => (c, values c)).mapM (keyComponent descriptors updateNative))
        (fun key item' => Asking columns keys asked item' ∧ rawKey key = cs.map values)
        (fun _ => True) item := by
    induction cs generalizing item with
    | nil => exact ⟨h, rfl⟩
    | cons c cs ih =>
      simp only [List.map_cons, List.mapM_cons, wp_bind]
      refine wp_mono (wp_keyComponent h descriptors updateNative (c, values c)) ?_ fun _ ht => ht
      rintro a item₁ ⟨h₁, ha⟩
      rw [wp_bind]
      refine wp_mono (ih h₁) ?_ fun _ ht => ht
      rintro rest item₂ ⟨h₂, hrest⟩
      refine ⟨h₂, ?_⟩
      rw [rawKey, List.map_cons, ha, ← rawKey, hrest]
  refine .of_wp ?_
  unfold keyToken
  simp only [wp_bind, wp_get, h.columns_eq]
  exact wp_ite (fun _ => trivial) fun _ => hcomponents columns h

omit [ColumnValue V] [ToString C] in
theorem collectIncremental_sameRun (h : Asking columns keys asked item)
    (hagree : probe.AgreeOn probe' columns keys) (hk : rawKey k ∈ asked) :
    SameRun (collectIncremental probe k p) (collectIncremental probe' k p)
      (fun _ => Asking columns keys asked) item := by
  unfold collectIncremental
  refine SameRun.bind (.of_modify (Q := fun _ => Asking columns keys asked)
    (h.settleStart_eq hagree hk) (h.settleStart hk)) fun _ item₁ h₁ => .get_bind (.of_wp ?_)
  have hread : Asking columns keys asked
      { item₁ with incrementalKeys := insert k item₁.incrementalKeys } :=
    h₁.congr rfl rfl rfl rfl rfl
  exact wp_ite (fun _ => h₁) fun _ => hread.place p none

theorem collectDelete_sameRun (h : Asking columns keys asked item)
    (hagree : probe.AgreeOn probe' columns keys) (hk : columns.map (columnOf e.before) ∈ asked) :
    SameRun (collectDelete probe e eventId) (collectDelete probe' e eventId)
      (fun _ => Asking columns keys asked) item := by
  unfold collectDelete
  refine (keyToken_sameRun h _ _ _).bind fun key item₁ ⟨h₁, hkey⟩ => ?_
  refine (remove_sameRun h₁ hagree (hkey ▸ hk)).bind fun _ item₂ h₂ => ?_
  exact .of_modify rfl (h₂.congr rfl rfl rfl rfl rfl)

omit [ColumnValue V] [ToString C] in
theorem Asking.placeMoved (h : Asking columns keys asked item) (old : Token V)
    (removed : Option (Entry C V)) :
    Asking columns keys asked (item.placeMoved k old p removed) := by
  unfold TableWork.placeMoved
  split <;> exact h.place _ _

theorem collectUpdate_sameRun (h : Asking columns keys asked item)
    (hagree : probe.AgreeOn probe' columns keys) (hk : rawKey k ∈ asked)
    (hcolumns : ∀ image, e.key = some image → image.keys = columns)
    (hmoved : (∀ c ∈ columns, (e.before.getD ∅).contains c = true) →
      columns.map (columnOf e.before) ∈ asked) :
    SameRun (collectUpdate probe e k p) (collectUpdate probe' e k p)
      (fun _ => Asking columns keys asked) item := by
  have hupdate : ∀ {item : TableWork C V}, Asking columns keys asked item →
      SameRun (update probe k p e.beforeImage) (update probe' k p e.beforeImage)
        (fun _ => Asking columns keys asked) item := fun h => update_sameRun h hagree hk
  unfold collectUpdate
  refine .ite (fun _ => hupdate h) fun _ => ?_
  cases himage : e.key with
  | none => exact .of_throw _
  | some image =>
    refine .ite (fun hall => ?_) fun _ => hupdate h
    have hold := hmoved fun c hc =>
      List.all_eq_true.1 hall c (by rwa [hcolumns image himage])
    refine (keyToken_sameRun h _ _ _).bind fun old item₁ ⟨h₁, hkey⟩ => ?_
    refine .ite (fun _ => hupdate h₁) fun _ => ?_
    refine (remove_sameRun h₁ hagree (hkey ▸ hold)).bind fun removed item₂ h₂ => ?_
    have hadded : Asking columns keys asked (item₂.addCdcKey old) :=
      h₂.congr rfl rfl rfl rfl rfl
    exact .of_modify rfl (hadded.placeMoved old removed)

theorem collectKeyed_sameRun (h : Asking columns keys asked item)
    (hagree : probe.AgreeOn probe' columns keys)
    (hcolumns : ∀ image, e.key = some image → image.keys = columns)
    (hasked : ∀ key, e.Asks columns key → key ∈ asked) :
    SameRun (collectKeyed probe e eventId p) (collectKeyed probe' e eventId p)
      (fun _ => Asking columns keys asked) item := by
  unfold collectKeyed
  refine (keyToken_sameRun h _ _ _).bind fun key item₁ ⟨h₁, hkey⟩ => ?_
  refine .ite (fun hincremental => ?_) fun _ => ?_
  · exact collectIncremental_sameRun h₁ hagree (hkey ▸ hasked _ (.incremental hincremental))
  refine SameRun.bind (.of_modify (Q := fun _ => Asking columns keys asked) rfl
    (h₁.congr rfl rfl rfl rfl rfl)) fun _ item₂ h₂ => ?_
  refine .ite (fun hdelete => ?_) fun _ => .ite (fun hupdate => ?_) fun _ => ?_
  · exact collectDelete_sameRun h₂ hagree (hasked _ (.delete hdelete))
  · exact collectUpdate_sameRun h₂ hagree (hkey ▸ hasked _ (.update hupdate)) hcolumns
      fun hshown => hasked _ (.moved hupdate hshown)
  · exact .of_modify rfl (h₂.place p none)

omit [ColumnValue V] in
theorem wp_declareField (h : Asking columns keys asked item) (descriptors : Dict C Descriptor)
    (q : C × FieldValue V) :
    wp (declareField descriptors q) (fun _ => Asking columns keys asked) (fun _ => True) item := by
  unfold declareField
  simp only [wp_bind, wp_get]
  split
  · refine wp_ite (fun _ => ?_) fun _ => h
    simp only [wp_bind, wp_set]
    exact wp_ite (fun _ => h.congr rfl rfl rfl rfl rfl) fun _ => trivial
  · exact wp_ite (fun _ => trivial) fun _ => h

omit [ToString C] [ColumnValue V] [DecidableEq V] [DecidableEq C] in
/-- `work_for` on a row event of the table: its identity is known. -/
theorem Tidy.observed [DecidableEq V] (h : Tidy columns keys item) (hkind : e.kind ≠ .truncate)
    {image : Image C V} (himage : e.key = some image) (hcolumns : image.keys = columns)
    (hasked : item.truncated = true ∨ asked ⊆ keys) :
    Asking columns keys asked ((item.recordSource e).identify e) := by
  have hrecorded : Tidy columns keys (item.recordSource e) ∧
      ((item.recordSource e).truncated = true ∨ asked ⊆ keys) := by
    unfold TableWork.recordSource
    split_ifs
    · exact ⟨⟨h.keyless, h.keyColumns, h.emptied, h.started⟩, hasked⟩
    · exact ⟨h, hasked⟩
  obtain ⟨⟨hkeyless, hkeys, hemptied, hstarted⟩, hasked⟩ := hrecorded
  unfold TableWork.identify
  by_cases hid : (item.recordSource e).identified = true
  · rw [if_neg (by simp [hid])]
    exact ⟨⟨hkeyless, hkeys, hemptied, hstarted⟩, hid, hasked⟩
  · rw [if_pos (by simp [hid, hkind])]
    refine ⟨⟨?_, fun _ => ?_, hemptied, hstarted⟩, rfl, hasked⟩
    · rw [himage, Option.isNone_some]
    · rw [himage, Option.getD_some, hcolumns]

omit [ToString C] [ColumnValue V] [DecidableEq C] in
theorem Tidy.truncate (h : Tidy columns keys item) : Tidy columns keys item.truncate where
  keyless := h.keyless
  keyColumns := h.keyColumns
  emptied _ _ := Or.inl rfl
  started _ _ := List.not_mem_nil

/-- **One record.** -/
theorem foldEvent_sameRun (commitId : ℕ) (h : Tidy columns keys item)
    (hagree : probe.AgreeOn probe' columns keys)
    (hcolumns : e.kind ≠ .truncate → ∃ image, e.key = some image ∧ image.keys = columns)
    (hasked : item.truncated = true ∨ asked ⊆ keys)
    (hasks : e.kind ≠ .truncate → ∀ key, e.Asks columns key → key ∈ asked) :
    SameRun (foldEvent probe commitId (e, eventId)) (foldEvent probe' commitId (e, eventId))
      (fun _ item' => Tidy columns keys item' ∧
        (item'.truncated = true ∨ e.kind ≠ .truncate ∧ asked ⊆ keys)) item := by
  unfold foldEvent
  refine SameRun.bind (.of_wp (Q := fun _ item₁ => item₁ = (item.recordSource e).identify e)
    (wp_true_iff.2 fun _ _ hrun => Layout.observe_ok hrun)) ?_
  rintro _ _ rfl
  refine .ite (fun hkind => .of_modify rfl ?_) fun hkind => .get_bind ?_
  · have hrecorded : Tidy columns keys (item.recordSource e) := by
      unfold TableWork.recordSource
      split_ifs
      · exact ⟨h.keyless, h.keyColumns, h.emptied, h.started⟩
      · exact h
    rw [Layout.identify_of_truncate hkind]
    exact ⟨hrecorded.truncate, Or.inl rfl⟩
  · obtain ⟨image, himage, himagekeys⟩ := hcolumns hkind
    have hkeys : ∀ image', e.key = some image' → image'.keys = columns := by
      rintro image' himage'
      rw [← Option.some.inj (himage.symm.trans himage'), himagekeys]
    have hobserved := h.observed hkind himage himagekeys hasked
    unfold collect
    rw [if_neg hkind, if_neg hkind]
    refine (SameRun.forM (I := fun _ => Asking columns keys asked)
      (fun q _ _ hq => .of_wp (wp_declareField hq _ q)) _ hobserved).bind fun _ item₁ h₁ => ?_
    have hcounted : Asking columns keys asked item₁.countEvent := h₁.congr rfl rfl rfl rfl rfl
    refine SameRun.bind (.of_modify (Q := fun _ => Asking columns keys asked) rfl hcounted)
      fun _ item₂ h₂ => .ite (fun _ => missingToastBase_sameRun) fun _ => .get_bind ?_
    rw [h₂.keyless]
    exact (collectKeyed_sameRun h₂ hagree hkeys (hasks hkind)).mono fun _ _ h₃ =>
      ⟨h₃.toTidy, h₃.asked_subset.imp_right fun hsub => ⟨hkind, hsub⟩⟩

/-! ### Groups -/

omit [DecidableEq V] [ColumnValue V] [ToString C] in
/-- The keys about which the fold of some records may ask: those of the records before the first
truncate. -/
def askedKeys (columns : List C) (records : List (PendingRecord C V × String)) :
    Set (List (Option V)) :=
  {key | ∃ r ∈ records.takeWhile (·.1.kind ≠ .truncate), r.1.Asks columns key}

/-- A tidy fold that has the records still before it: those that are no truncate carry its key
columns, and unless it has met a truncate, they ask about these keys only. -/
structure TidyBefore (columns : List C) (keys : Set (List (Option V)))
    (records : List (PendingRecord C V × String)) (item : TableWork C V) : Prop where
  tidy : Tidy columns keys item
  keyed : ∀ r ∈ records, r.1.kind ≠ .truncate → ∃ image, r.1.key = some image ∧
    image.keys = columns
  asked : item.truncated = true ∨ askedKeys columns records ⊆ keys

/-- **One transaction.** -/
theorem foldTransaction_sameRun (commitId : ℕ) (hagree : probe.AgreeOn probe' columns keys)
    {records rest : List (PendingRecord C V × String)}
    (h : TidyBefore columns keys (records ++ rest) item) :
    SameRun (foldTransaction probe commitId records) (foldTransaction probe' commitId records)
      (fun _ => TidyBefore columns keys rest) item := by
  have hevent (r : PendingRecord C V × String) (l : List (PendingRecord C V × String))
      (item : TableWork C V) (h : TidyBefore columns keys (r :: l ++ rest) item) :
      SameRun (foldEvent probe commitId r) (foldEvent probe' commitId r)
        (fun _ => TidyBefore columns keys (l ++ rest)) item := by
    refine (foldEvent_sameRun commitId h.tidy hagree (h.keyed r List.mem_cons_self) h.asked
      fun hkind key hasks => ⟨r, ?_, hasks⟩).mono fun _ item' ⟨htidy, hasked⟩ =>
        ⟨htidy, fun q hq => h.keyed q (List.mem_cons_of_mem r hq), hasked.imp_right ?_⟩
    · simp [hkind]
    · rintro ⟨hkind, hsub⟩ key ⟨q, hq, hasks⟩
      refine hsub ⟨q, ?_, hasks⟩
      simpa [List.takeWhile_cons, hkind] using Or.inr hq
  unfold foldTransaction
  refine (SameRun.forM (I := fun l => TidyBefore columns keys (l ++ rest)) hevent records h).bind
    fun _ item₁ h₁ => .get_bind (.of_wp ?_)
  exact wp_ite (fun _ => trivial) fun _ => h₁

/-- **A whole group.** -/
theorem foldGroup_sameRun (commitId : ℕ) (hagree : probe.AgreeOn probe' columns keys)
    {group : List (List (PendingRecord C V × String))}
    (h : TidyBefore columns keys group.flatten item) :
    SameRun (forM group (foldTransaction probe commitId))
      (forM group (foldTransaction probe' commitId)) (fun _ => Tidy columns keys) item :=
  (SameRun.forM (I := fun l => TidyBefore columns keys l.flatten)
    (fun _ _ _ h => foldTransaction_sameRun commitId hagree h) group h).mono fun _ _ h => h.tidy

end Programs

end CdcFlight
