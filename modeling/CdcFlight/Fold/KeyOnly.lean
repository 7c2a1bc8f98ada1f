import CdcFlight.Fold.Wearing

/-!
# The fold of a table that is all key

While the destination's own row and one row of the group wear a key, a delete empties the key of
both; while two rows of the group wear it, the fold raises.

## Main definitions

* `CdcFlight.Layout.Wears`: the relation between the fold, the rows it believes in and the source.

## Main results

* `CdcFlight.Layout.Wears.foldEvent_ok`, `CdcFlight.Layout.Wears.foldEvent_total`.
-/

namespace CdcFlight

open Lib

namespace Layout

variable {C V : Type} [DecidableEq C] [DecidableEq V] {layout : Layout C}
  {D B S S' : Multiset (Row C V)} {item item' item₁ : TableWork C V} {k : Token V}
  {es : List (Entry C V)} {probe : Probe C V} {old new r : Row C V} {w : Wearing}

/-! ### Attribution without a distinguishing column -/

section Settled

variable [ColumnValue V] {before : BeforeImage C V} {what : Attributed} {index : Option ℕ}

omit [DecidableEq V] in
/-- No column of a before-image tells rows apart. -/
theorem KeyOnly.distinguishing_eq (h : layout.KeyOnly)
    (hw : layout.WellTyped before.image before.descriptors before.typed)
    (hkeys : item.keyColumns = layout.keyColumns) :
    (distinguishing item before.image before.descriptors before.typed).items = [] ∧
      collapsedVariantNull item before = false := by
  have hkey {c : C} {x : Option V} (hx : (c, x) ∈ (before.image.getD ∅).items) :
      c ∈ item.keyColumns := by
    rw [hkeys]
    refine h c ?_
    by_contra hc
    have hnone := hw.image_columns c hc
    rw [Dict.get?_eq_some_iff.2 hx] at hnone
    cases hnone
  constructor
  · refine List.eq_nil_iff_forall_not_mem.2 fun p hp => ?_
    have hget := Dict.get?_eq_some_iff.2 hp
    rw [distinguishing, Dict.get?_filterMapValues] at hget
    obtain ⟨x, hx, hcol⟩ := Option.bind_eq_some_iff.1 hget
    have hmem := hkey (Dict.get?_eq_some_iff.1 hx)
    simp [hmem] at hcol
  · rw [collapsedVariantNull, List.any_eq_false]
    intro p hp
    simp [hkey hp]

/-- Attribution finds the only entry, or none where the destination's own row and one of the group
wear the key, and raises where more do. -/
theorem KeyOnly.run_targetEntry (h : layout.KeyOnly)
    (hw : layout.WellTyped before.image before.descriptors before.typed)
    (hkeys : item.keyColumns = layout.keyColumns) (k : Token V) (probe : Probe C V)
    (what : Attributed) :
    (concrete ((settledAt probe k item).entriesAt k) ≤ 1 →
      ∃ index, (targetEntry probe k before what).run (item.settleStart probe k) =
          .ok index (settledAt probe k item) ∧
        index = if ((settledAt probe k item).entriesAt k).length = 1 then some 0 else none) ∧
    (1 < concrete ((settledAt probe k item).entriesAt k) →
      ∃ refusal item', (targetEntry probe k before what).run (item.settleStart probe k) =
        .error refusal item') := by
  have hkeys' : (settledAt probe k item).keyColumns = layout.keyColumns :=
    (congrArg FoldConfig.keyColumns (config_settledAt item)).trans hkeys
  obtain ⟨hnil, hnull⟩ := h.distinguishing_eq hw hkeys'
  have hamong : (attributeAmong probe k before what).run (settledAt probe k item) =
      if concrete ((settledAt probe k item).entriesAt k) ≤ 1 then
        .ok none (settledAt probe k item)
      else (unattributable k what "no distinguishing columns").run (settledAt probe k item) := by
    unfold attributeAmong
    simp only [EStateM.run_bind, EStateM.run_get, hnull, Bool.false_eq_true, false_and, if_false,
      hnil, if_true]
    split_ifs <;> rfl
  rw [Layout.run_targetEntry, ← settledAt, hamong]
  constructor
  · intro hle
    rw [if_pos hle]
    split
    · rename_i hes
      exact ⟨none, rfl, by rw [hes]; rfl⟩
    · rename_i x hes
      exact ⟨some 0, rfl, by rw [hes]; rfl⟩
    · rename_i hnone hone
      refine ⟨none, rfl, ?_⟩
      rw [if_neg]
      intro hlen
      obtain ⟨x, hx⟩ := List.length_eq_one_iff.1 hlen
      exact hone x hx
  · intro hlt
    rw [if_neg (by omega)]
    split
    · rename_i hes
      rw [hes] at hlt
      exact absurd hlt (by simp [concrete])
    · rename_i x hes
      rw [hes] at hlt
      have hlen : concrete [x] ≤ 1 := by cases x <;> simp [concrete]
      omega
    · exact ⟨_, _, rfl⟩

/-! ### Deletes and updates -/

/-- The rows under other keys. -/
def others (layout : Layout C) (B : Multiset (Row C V)) (k : Token V) : Multiset (Row C V) :=
  B.filter fun s => layout.token s ≠ k

omit [DecidableEq C] [ColumnValue V] in
theorem rowsAt_others_self (B : Multiset (Row C V)) (k : Token V) :
    layout.rowsAt (layout.others B k) k = 0 :=
  Multiset.filter_eq_nil.2 fun _ hs htoken => (Multiset.mem_filter.1 hs).2 htoken

omit [DecidableEq C] [ColumnValue V] in
theorem rowsAt_others_of_ne {j : Token V} (hj : j ≠ k) :
    layout.rowsAt (layout.others B k) j = layout.rowsAt B j := by
  rw [rowsAt, under, others, Multiset.filter_filter]
  refine Multiset.filter_congr fun s _ => ?_
  constructor
  · exact fun hs => hs.1
  · exact fun hs => ⟨hs, by rw [hs]; exact hj⟩

/-- What an operation leaves of a key. -/
structure LeavesKey (k : Token V) (item item' : TableWork C V) (es : List (Entry C V)) :
    Prop where
  beside : Beside k item item'
  config : item'.config = item.config
  get : item'.live.get? k = some es
  multi : k ∉ item'.multi

omit [DecidableEq C] [ColumnValue V] in
/-- A key with at most one entry is not marked as worn twice. -/
theorem notMem_multi_track (item : TableWork C V) (hlen : (item.entriesAt k).length ≤ 1) :
    k ∉ (item.track k).multi := by
  unfold TableWork.track
  dsimp only
  rw [if_neg (by omega)]
  exact Finset.notMem_erase k _

omit [ColumnValue V] in
/-- A key whose last entry is taken away. -/
theorem taken_nil (hrep : layout.Represents D item B)
    (hleft : rowsLeft item (layout.token old) index = []) :
    (taken item (layout.token old) index).live.get? (layout.token old) = some [] ∧
      layout.token old ∉ (taken item (layout.token old) index).multi ∧
      layout.Represents D (taken item (layout.token old) index)
        (layout.others B (layout.token old)) := by
  have hget : (item.setEntries (layout.token old) []).live.get? (layout.token old) = some [] := by
    rw [get?_setEntries, if_pos rfl]
  have hset : layout.Represents D (item.setEntries (layout.token old) [])
      (layout.others B (layout.token old)) := by
    refine hrep.setEntries ⟨old, rfl⟩ ?_ (rowsAt_others_self B _)
      (fun j hj => rowsAt_others_of_ne hj) fun _ => rfl
    exact ⟨by simp, by simp, by simp, by simp⟩
  simp only [taken, hleft, if_true]
  refine ⟨hget, notMem_multi_track _ ?_, (hset.bury hget).track _⟩
  have hnil : ((item.setEntries (layout.token old) []).addTombstone
      (layout.token old)).entriesAt (layout.token old) = [] := entriesAt_of_get? hget
  rw [hnil]
  exact Nat.zero_le 1

/-- A delete that does not raise empties the key. -/
theorem KeyOnly.remove_ok (h : layout.KeyOnly) (hA : layout.Answers probe D)
    (hw : layout.WellTyped before.image before.descriptors before.typed)
    (hrep : layout.Represents D item B) (hc : layout.Configured item.config)
    (hkeys : item.keyColumns = layout.keyColumns) {removed : Option (Entry C V)}
    (hrun : (remove probe (layout.token old) before).run item = .ok removed item') :
    concrete (item.seenAt (layout.token old)) ≤ 1 ∧
      LeavesKey (layout.token old) item item' [] ∧
      layout.Represents D item' (layout.others B (layout.token old)) := by
  obtain ⟨hrep₁, hsome, hstart, hcount⟩ := settledAt_spec hA hrep hc hkeys old
  obtain ⟨index, htarget, rfl⟩ := remove_state hrun
  obtain ⟨hdecides, hraises⟩ := h.run_targetEntry hw hkeys (layout.token old) probe .delete
  have hle : concrete ((settledAt probe (layout.token old) item).entriesAt (layout.token old)) ≤
      1 := by
    by_contra hlt
    obtain ⟨refusal, item₁, herror⟩ := hraises (by omega)
    rw [htarget] at herror
    cases herror
  obtain ⟨index', htarget', hindex⟩ := hdecides hle
  rw [htarget] at htarget'
  obtain rfl : index = index' := by cases htarget'; rfl
  have hleft : rowsLeft (settledAt probe (layout.token old) item) (layout.token old) index =
      [] := by
    rw [hindex]
    split_ifs with hone
    · obtain ⟨x, hx⟩ := List.length_eq_one_iff.1 hone
      rw [rowsLeft, hx]
      rfl
    · rfl
  obtain ⟨hget, hmulti, hrep'⟩ := taken_nil hrep₁ hleft
  exact ⟨hcount ▸ hle, ⟨(Beside.settledAt probe item _).trans (Beside.taken _ _ _), by simp, hget,
    hmulti⟩, hrep'⟩

/-- A delete raises only where two rows of the group wear the key. -/
theorem KeyOnly.remove_total (h : layout.KeyOnly) (hA : layout.Answers probe D)
    (hw : layout.WellTyped before.image before.descriptors before.typed)
    (hrep : layout.Represents D item B) (hc : layout.Configured item.config)
    (hkeys : item.keyColumns = layout.keyColumns)
    (hle : concrete (item.seenAt (layout.token old)) ≤ 1) :
    ∃ removed item', (remove probe (layout.token old) before).run item = .ok removed item' := by
  obtain ⟨-, -, -, hcount⟩ := settledAt_spec hA hrep hc hkeys old
  obtain ⟨index, htarget, -⟩ :=
    (h.run_targetEntry hw hkeys (layout.token old) probe .delete).1
      (hcount ▸ hle)
  exact remove_of_targetEntry htarget

omit [ColumnValue V] in
/-- The only row under a key that the fold knows of. -/
theorem KeyOnly.denote_eq (h : layout.KeyOnly) (hD : layout.KeysDistinct D)
    (hrep : layout.Represents D item B) (hB : ∀ s ∈ B, layout.Fits s) (hold : layout.Fits old)
    {x : Entry C V} (hget : item.live.get? (layout.token old) = some [x])
    (hstart : x = .start → layout.rowsAt D (layout.token old) ≠ 0) :
    layout.denote D (layout.token old) x = {old} := by
  have hwf := hrep.wellFormed _ _ hget
  have hne : layout.denote D (layout.token old) x ≠ 0 :=
    denote_ne_zero hwf (fun es hes => hstart (List.cons.inj hes).1) List.mem_cons_self
  have hrows : layout.rowsAt B (layout.token old) = layout.denote D (layout.token old) x := by
    rw [hrep.seen _ _ hget, denoteAll_cons, denoteAll_nil, add_zero]
  obtain ⟨s, hs⟩ := Multiset.exists_mem_of_ne_zero hne
  rw [← hrows] at hs
  obtain ⟨hsB, htoken⟩ := mem_rowsAt.1 hs
  obtain rfl := h.eq_of_token (hB s hsB) hold htoken
  rw [hrows] at hs
  exact eq_singleton_of_mem (card_denote_le hD _ x) hs

omit [ColumnValue V] in
/-- A probe leaves an entry where there was one. -/
theorem settledAt_ne_nil (hne : (item.settleStart probe k).entriesAt k ≠ []) :
    (settledAt probe k item).entriesAt k ≠ [] := by
  rw [settledAt, resolveMany]
  split_ifs with hlen
  · simp only [TableWork.resolveStart]
    split
    · rename_i es hes
      rw [hes, List.length_cons] at hlen
      have hes' : es ≠ [] := by
        rintro rfl
        exact absurd hlen (by simp)
      split_ifs
      · rw [entriesAt_setEntries]
        exact hes'
      · exact hne
      · rw [entriesAt_setEntries]
        exact hes'
    · exact hne
  · exact hne

omit [ColumnValue V] in
/-- The state after one entry replaces those of a key. -/
theorem setEntries_singleton (hrep : layout.Represents D item B)
    (hne : item.entriesAt (layout.token old) ≠ []) (htoken : layout.token new = layout.token old)
    {x : Entry C V} (hwf : layout.WellFormed D item.truncated (layout.token old) [x])
    (hdenote : layout.denote D (layout.token old) x = {new}) :
    ((item.setEntries (layout.token old) [x]).track (layout.token old)).live.get?
        (layout.token old) = some [x] ∧
      layout.token old ∉ ((item.setEntries (layout.token old) [x]).track (layout.token old)).multi ∧
      layout.Represents D ((item.setEntries (layout.token old) [x]).track (layout.token old))
        (new ::ₘ layout.others B (layout.token old)) := by
  have hget : (item.setEntries (layout.token old) [x]).live.get? (layout.token old) = some [x] := by
    rw [get?_setEntries, if_pos rfl]
  refine ⟨hget, notMem_multi_track _ ?_, (hrep.setEntries ⟨old, rfl⟩ hwf ?_ ?_ ?_).track _⟩
  · rw [entriesAt_setEntries]
    exact le_rfl
  · rw [← htoken, rowsAt_cons_self, htoken, rowsAt_others_self, denoteAll_cons, denoteAll_nil,
      hdenote]
    rfl
  · intro j hj
    rw [rowsAt_cons_of_ne (by rw [htoken]; exact Ne.symm hj), rowsAt_others_of_ne hj]
  · intro hdel
    exact absurd (entriesAt_of_get? (hrep.deleted _ hdel)) hne

omit [ColumnValue V] in
/-- The state after an update that was attributed to the only entry, or to none. -/
theorem KeyOnly.replaced_spec (h : layout.KeyOnly) (hD : layout.KeysDistinct D)
    (hDfits : ∀ s ∈ D, layout.Fits s) (hrep : layout.Represents D item B)
    (hB : ∀ s ∈ B, layout.Fits s) (hold : layout.Fits old)
    (hsome : (item.live.get? (layout.token old)).isSome)
    (hne : item.entriesAt (layout.token old) ≠ [])
    (hle : concrete (item.entriesAt (layout.token old)) ≤ 1)
    (hstart : Entry.start ∈ item.entriesAt (layout.token old) →
      layout.rowsAt D (layout.token old) ≠ 0)
    (htoken : layout.token new = layout.token old) {q : RowPatch C V}
    (hq : q.complete = false) (happly : q.apply old = new) :
    ∃ x, x ≠ .start ∧
      replaced item (layout.token old) q
          (if (item.entriesAt (layout.token old)).length = 1 then some 0 else none) =
        (item.setEntries (layout.token old) [x]).track (layout.token old) ∧
      layout.WellFormed D item.truncated (layout.token old) [x] ∧
      layout.denote D (layout.token old) x = {new} := by
  have hget := get?_of_isSome hsome
  have hwf := hrep.wellFormed _ _ hget
  by_cases hone : (item.entriesAt (layout.token old)).length = 1
  · obtain ⟨x, hx⟩ := List.length_eq_one_iff.1 hone
    rw [hx] at hget hwf hstart
    have hdenote := h.denote_eq hD hrep hB hold hget fun hs => hstart (hs ▸ List.mem_cons_self)
    refine ⟨x.updated q, ?_, ?_, ?_, denote_updated hdenote hq happly⟩
    · cases x <;> simp [Entry.updated]
    · rw [if_pos hone, replaced, hx]
      rfl
    · have hmodify := hwf.modify (q := q) (i := 0) rfl (by
        rw [hdenote]
        exact Multiset.singleton_ne_zero _)
      exact hmodify
  · -- the destination's own row and one of the group: both give way to the image
    have hs : Entry.start ∈ item.entriesAt (layout.token old) := by
      by_contra hs
      rw [concrete_of_notMem hs] at hle
      have hpos : 0 < (item.entriesAt (layout.token old)).length := List.length_pos_iff.2 hne
      omega
    obtain ⟨d, hd⟩ := Multiset.exists_mem_of_ne_zero (hstart hs)
    have hrowsD := eq_singleton_of_mem (hD.card_rowsAt_le _) hd
    obtain ⟨hdD, hdtoken⟩ := mem_rowsAt.1 hd
    obtain rfl := h.eq_of_token (hDfits d hdD) hold hdtoken
    refine ⟨.patch q, by simp, ?_, ⟨by simp, by simp, by simp, fun p hp _ => ⟨?_, hstart hs⟩⟩, ?_⟩
    · rw [if_neg hone, replaced]
    · by_contra htr
      exact hwf.start_truncated (by simpa using htr) hs
    · rw [denote, if_neg (by simp [hq]), hrowsD, Multiset.map_singleton, happly]

/-- An update that does not raise leaves one row under the key. -/
theorem KeyOnly.update_ok (h : layout.KeyOnly) (hA : layout.Answers probe D)
    (hD : layout.KeysDistinct D) (hDfits : ∀ s ∈ D, layout.Fits s)
    (hw : layout.WellTyped before.image before.descriptors before.typed)
    (hrep : layout.Represents D item B) (hB : ∀ s ∈ B, layout.Fits s)
    (hc : layout.Configured item.config) (hkeys : item.keyColumns = layout.keyColumns)
    (hold : layout.Fits old) (htoken : layout.token new = layout.token old) {q : RowPatch C V}
    (hq : q.complete = false) (happly : q.apply old = new)
    (hrun : (update probe (layout.token old) q before).run item = .ok () item') :
    concrete (item.seenAt (layout.token old)) ≤ 1 ∧
      (concrete (item.seenAt (layout.token old)) = 0 →
        Entry.start ∈ item.seenAt (layout.token old) ∧
          layout.rowsAt D (layout.token old) ≠ 0) ∧
      (∃ x, x ≠ .start ∧ LeavesKey (layout.token old) item item' [x]) ∧
      layout.Represents D item' (new ::ₘ layout.others B (layout.token old)) := by
  obtain ⟨hrep₁, hsome, hstart, hcount⟩ := settledAt_spec hA hrep hc hkeys old
  obtain ⟨hdel, hne, index, htarget, rfl⟩ := update_state hc.incremental hrun
  obtain ⟨hdecides, hraises⟩ := h.run_targetEntry hw hkeys (layout.token old) probe .update
  have hne₁ := settledAt_ne_nil hne
  have hle : concrete ((settledAt probe (layout.token old) item).entriesAt (layout.token old)) ≤
      1 := by
    by_contra hlt
    obtain ⟨refusal, item₁, herror⟩ := hraises (by omega)
    rw [htarget] at herror
    cases herror
  obtain ⟨index', htarget', hindex⟩ := hdecides hle
  rw [htarget] at htarget'
  obtain rfl : index = index' := by cases htarget'; rfl
  obtain ⟨x, hx, hreplaced, hwf, hdenote⟩ := h.replaced_spec hD hDfits hrep₁ hB hold hsome hne₁ hle
    (fun hs => (hstart.1 hs).2) htoken hq happly
  obtain ⟨hget, hmulti, hrep'⟩ := setEntries_singleton hrep₁ hne₁ htoken hwf hdenote
  rw [hindex, hreplaced]
  refine ⟨hcount ▸ hle, fun hzero => hstart.1 ?_, ⟨x, hx, ⟨?_, by simp, hget, hmulti⟩⟩, hrep'⟩
  · by_contra hs
    rw [← hcount, concrete_of_notMem hs] at hzero
    exact hne₁ (List.length_eq_zero_iff.1 hzero)
  · exact (Beside.settledAt probe item _).trans
      ((Beside.setEntries _ _ _).trans (Beside.track _ _))

/-- An update raises only where two rows of the group wear the key, or the fold knows of none. -/
theorem KeyOnly.update_total (h : layout.KeyOnly) (hA : layout.Answers probe D)
    (hw : layout.WellTyped before.image before.descriptors before.typed)
    (hrep : layout.Represents D item B) (hc : layout.Configured item.config)
    (hkeys : item.keyColumns = layout.keyColumns) {q : RowPatch C V}
    (hle : concrete (item.seenAt (layout.token old)) ≤ 1)
    (hzero : concrete (item.seenAt (layout.token old)) = 0 →
      Entry.start ∈ item.seenAt (layout.token old) ∧ layout.rowsAt D (layout.token old) ≠ 0) :
    ∃ item', (update probe (layout.token old) q before).run item = .ok () item' := by
  obtain ⟨hrep₁, hsome, hstart, hcount⟩ := settledAt_spec hA hrep hc hkeys old
  obtain ⟨index, htarget, -⟩ :=
    (h.run_targetEntry hw hkeys (layout.token old) probe .update).1 (hcount ▸ hle)
  have hne₁ : (settledAt probe (layout.token old) item).entriesAt (layout.token old) ≠ [] := by
    intro hnil
    rw [hnil] at hstart hcount
    exact absurd (hstart.2 (hzero hcount.symm)) List.not_mem_nil
  refine update_of_targetEntry (fun hdel => ?_) (fun hnil => hne₁ ?_) htarget
  · have hseen := seenAt_of_get? (hrep.deleted _ hdel)
    rw [hseen] at hzero
    exact absurd (hzero rfl).1 List.not_mem_nil
  · rw [settledAt, resolveMany, hnil]
    exact hnil

end Settled

/-! ### The fold along a history -/

/-- The fold stands for rows `B` and knows of each key what `W` says, while the source holds the
rows `S`. -/
structure Wears (layout : Layout C) (D : Multiset (Row C V)) (item : TableWork C V)
    (B S : Multiset (Row C V)) (W : Token V → Wearing) : Prop where
  simulates : layout.Simulates D item B
  fits : ∀ r ∈ S, layout.Fits r
  worn : ∀ r, layout.Worn D item (layout.token r) (W (layout.token r))
  rows : ∀ r, (layout.rowsAt S (layout.token r)).card = (W (layout.token r)).rows
  multi : ∀ k ∈ item.multi, 1 < concrete (item.entriesAt k)

/-- What is known of the keys after an event. -/
def wearAll (layout : Layout C) (W : Token V → Wearing) (event : SourceEvent C V) (k : Token V) :
    Wearing :=
  (layout.wearStep k (W k) event).getD (W k)

/-- The old row of an update or a delete, the new row of an insert. -/
def concerned : SourceEvent C V → Option (Row C V)
  | .insert r => some r
  | .update old _ => some old
  | .delete old => some old
  | .truncate => none

omit [DecidableEq C] in
/-- Other keys are not concerned by a row event. -/
theorem wearStep_of_ne {W : Token V → Wearing} {event : SourceEvent C V} {j : Token V}
    (hr : concerned event = some r) (hj : j ≠ layout.token r) :
    layout.wearStep j (W j) event = some (W j) := by
  cases event with
  | insert s =>
    obtain rfl := Option.some.inj hr
    rw [wearStep, if_neg (Ne.symm hj)]
  | update s _ =>
    obtain rfl := Option.some.inj hr
    rw [wearStep, if_neg (Ne.symm hj)]
  | delete s =>
    obtain rfl := Option.some.inj hr
    rw [wearStep, if_neg (Ne.symm hj)]
  | truncate => cases hr

omit [DecidableEq C] in
/-- The rows under other keys stay. -/
theorem rowsAt_of_step {event : SourceEvent C V} (hstep : layout.Step S event S')
    (hr : concerned event = some r) {j : Token V} (hj : j ≠ layout.token r) :
    layout.rowsAt S' j = layout.rowsAt S j := by
  cases hstep with
  | insert _ =>
    obtain rfl := Option.some.inj hr
    exact rowsAt_cons_of_ne (Ne.symm hj)
  | update _ hkey =>
    obtain rfl := Option.some.inj hr
    rw [rowsAt_cons_of_ne (Ne.symm hj),
      rowsAt_cons_of_ne (by rw [layout.token_eq_iff.2 hkey]; exact Ne.symm hj)]
  | delete =>
    obtain rfl := Option.some.inj hr
    exact (rowsAt_cons_of_ne (Ne.symm hj)).symm
  | truncate => cases hr

/-- The relation after an operation on the rows of one key. -/
theorem Wears.of_key {W : Token V → Wearing} {item₂ : TableWork C V} {B' : Multiset (Row C V)}
    {event : SourceEvent C V} {w' : Wearing} (h : layout.Wears D item B S W)
    (hready : layout.Ready item item₁) (hbeside : Beside (layout.token old) item₁ item₂)
    (hconfig : item₂.config = item₁.config) (hsettles : Settles item₂ item')
    (hrep : layout.Represents D item₂ B') (hB' : ∀ s ∈ B', layout.Fits s)
    (hstep : layout.Step S event S') (hold : concerned event = some old)
    (hself : layout.wearStep (layout.token old) (W (layout.token old)) event = some w')
    (hworn : layout.Worn D item₂ (layout.token old) w')
    (hrows : (layout.rowsAt S' (layout.token old)).card = w'.rows)
    (hmulti : layout.token old ∈ item₂.multi → 1 < concrete (item₂.entriesAt (layout.token old)))
    (hfirst : item.identified = false → D = 0 →
      ∀ c ∈ layout.columns, (item₁.nativeColumns.get? c).isSome) :
    (∀ k, (layout.wearStep k (W k) event).isSome) ∧
      ∃ B', layout.Wears D item' B' S' (wearAll layout W event) := by
  have hseen (j : Token V) : item'.seenAt j = item₂.seenAt j :=
    seenAt_congr (by rw [hsettles.same.live]) hsettles.same.truncated
  have hseen_ne (j : Token V) (hj : j ≠ layout.token old) : item₂.seenAt j = item.seenAt j :=
    seenAt_congr ((hbeside.live j hj).trans (by rw [hready.same.live]))
      (hbeside.truncated.trans hready.same.truncated)
  have hall_self : wearAll layout W event (layout.token old) = w' := by
    rw [wearAll, hself]
    rfl
  have hall_ne {j : Token V} (hj : j ≠ layout.token old) : wearAll layout W event j = W j := by
    rw [wearAll, wearStep_of_ne hold hj]
    rfl
  refine ⟨fun k => ?_, B', h.simulates.of_operation hready hrep hconfig hsettles hB' hfirst,
    hstep.fits h.fits, fun r => ?_, fun r => ?_, fun k hk => ?_⟩
  · by_cases hk : k = layout.token old
    · rw [hk, hself]
      rfl
    · rw [wearStep_of_ne hold hk]
      rfl
  · by_cases hr : layout.token r = layout.token old
    · rw [hr, hall_self]
      exact hworn.congr (hseen _)
    · rw [hall_ne hr]
      exact (h.worn r).congr ((hseen _).trans (hseen_ne _ hr))
  · by_cases hr : layout.token r = layout.token old
    · rw [hr, hall_self]
      exact hrows
    · rw [hall_ne hr, rowsAt_of_step hstep hold hr]
      exact h.rows r
  · have hlive : item'.entriesAt k = item₂.entriesAt k := by
      rw [TableWork.entriesAt, TableWork.entriesAt, hsettles.same.live]
    rw [hsettles.same.multi] at hk
    rw [hlive]
    by_cases hkey : k = layout.token old
    · subst hkey
      exact hmulti hk
    · have hentries : item₂.entriesAt k = item.entriesAt k := by
        rw [TableWork.entriesAt, TableWork.entriesAt, hbeside.live k hkey, hready.same.live]
      rw [hentries]
      refine h.multi k ?_
      rw [← hready.same.multi]
      exact (hbeside.multi k hkey).1 hk

/-! ### One record -/

section Record

variable [ColumnValue V] [ToString C] {W : Token V → Wearing} {event : SourceEvent C V}
  {e : PendingRecord C V} {eventId : String} {commitId : ℕ}

omit [ColumnValue V] [ToString C] in
/-- Nothing is known of a table that held no rows and has met no record. -/
theorem Wears.eq_zero (h : layout.Wears D item B S W) (hid : item.identified = false)
    (hD : D = 0) : S = 0 := by
  subst hD
  have hB : B = 0 := h.simulates.represents.eq_zero (h.simulates.unidentified hid)
  refine Multiset.eq_zero_of_forall_notMem fun r hr => ?_
  have hpos : 0 < (layout.rowsAt S (layout.token r)).card :=
    Multiset.card_pos_iff_exists_mem.2 ⟨r, mem_rowsAt.2 ⟨hr, rfl⟩⟩
  have hlive := h.simulates.unidentified hid
  have hnone : item.live.get? (layout.token r) = none := by
    rw [Dict.get?_eq_none_iff, Dict.keys, hlive]
    exact List.not_mem_nil
  have hworn := h.worn r
  have hrows := h.rows r
  have hseen : concrete (item.seenAt (layout.token r)) = 0 := by
    rw [TableWork.seenAt, hnone, Option.getD_none]
    split_ifs <;> rfl
  have hplaced := hworn.placed_eq
  cases hw : W (layout.token r) with
  | own n =>
    rw [hw] at hworn
    exact hworn.2.1 rfl
  | missed n =>
    rw [hw] at hworn
    exact hworn.2.1 rfl
  | known n =>
    rw [hw] at hrows hplaced
    have hn : n = 0 := hplaced.symm.trans hseen
    have hcard : (layout.rowsAt S (layout.token r)).card = n := hrows
    omega

/-- After a truncate the fold knows that no key is worn. -/
theorem Wears.truncate (h : layout.Wears D item B S W) (hA : layout.Answers probe D)
    (hrender : layout.Renders .truncate e) (hkind : e.kind = .truncate)
    (hrun : (foldEvent probe commitId (e, eventId)).run item = .ok () item') :
    layout.Wears D item' 0 0 (wearAll layout W .truncate) := by
  have hfold := foldEvent_truncate hkind hrun
  have hsim : layout.Simulates D item' 0 :=
    (Layout.foldEvent_ok hA h.simulates .truncate hrender trivial hrun).1
  have hseen (k : Token V) : item'.seenAt k = [] := by
    rw [hfold]
    rfl
  refine ⟨hsim, fun s hs => absurd hs (Multiset.notMem_zero s), fun r => ?_, fun r => rfl,
    fun k hk => ?_⟩
  · refine ⟨fun hs => ?_, ?_⟩
    · rw [hseen] at hs
      exact absurd hs List.not_mem_nil
    · rw [hseen]
      rfl
  · rw [hfold] at hk
    exact absurd hk (Finset.notMem_empty k)

/-- **One record.** A record that does not raise keeps the fold standing for the rows it believes
in, and what it knows of each key is what the history says. -/
theorem Wears.foldEvent_ok (h : layout.Wears D item B S W) (hall : layout.KeyOnly)
    (hA : layout.Answers probe D) (hD : layout.KeysDistinct D) (hDfits : ∀ s ∈ D, layout.Fits s)
    (hstep : layout.Step S event S') (hrender : layout.Renders event e)
    (hrun : (foldEvent probe commitId (e, eventId)).run item = .ok () item') :
    (∀ k, (layout.wearStep k (W k) event).isSome) ∧
      ∃ B', layout.Wears D item' B' S' (wearAll layout W event) := by
  by_cases hkind : e.kind = .truncate
  · obtain rfl := hrender.eq_truncate hkind
    cases hstep
    exact ⟨fun _ => rfl, 0, h.truncate hA hrender hkind hrun⟩
  have hkey (old new : Row C V) (heq : event = .update old new) :
      layout.token new = layout.token old := by
    subst heq
    cases hstep with
    | update _ hkey => exact layout.token_eq_iff.2 hkey
  obtain ⟨item₁, item₂, hready, hop, hsettles, hbinds⟩ :=
    foldEvent_operation h.simulates hrender hkind hkey hrun
  have hrep := hready.same.represents h.simulates.represents
  have hseen (k : Token V) : item₁.seenAt k = item.seenAt k :=
    seenAt_congr (by rw [hready.same.live]) hready.same.truncated
  have hworn (r : Row C V) := (h.worn r).congr (hseen (layout.token r))
  have hothers (k : Token V) : ∀ s ∈ layout.others B k, layout.Fits s := fun s hs =>
    h.simulates.fits s (Multiset.mem_of_mem_filter hs)
  cases hrender with
  | truncate ht _ => exact absurd ht hkind
  | @insert r _ he hafter =>
    obtain ⟨hr, rfl⟩ : layout.Fits r ∧ S' = r ::ₘ S := by
      cases hstep with
      | insert hr => exact ⟨hr, rfl⟩
    obtain ⟨hcomplete, happly⟩ := apply_fromEvent_insert commitId eventId hr he hafter
    have hitem₂ : item₂ = item₁.place (layout.token r)
        (RowPatch.fromEvent e commitId eventId false) none := by
      cases hop
      rfl
    obtain ⟨hget, hmulti⟩ := get?_place item₁ (layout.token r)
      (RowPatch.fromEvent e commitId eventId false)
    rw [← hitem₂] at hget hmulti
    obtain ⟨hworn', hrows'⟩ := (hworn r).inserted hget
    have hrep' : layout.Represents D item₂ (r ::ₘ B) := by
      rw [hitem₂]
      exact hrep.place hcomplete happly
    refine h.of_key hready ?_ ?_ hsettles hrep' ?_ hstep rfl (by rw [wearStep, if_pos rfl])
      hworn' ?_ hmulti ?_
    · rw [hitem₂]
      exact Beside.place _ _ _ _
    · rw [hitem₂]
      exact config_place _ _ _ _
    · intro s hs
      rcases Multiset.mem_cons.1 hs with rfl | hs
      · exact hr
      · exact h.simulates.fits s hs
    · rw [hrows', rowsAt_cons_self, Multiset.card_cons, h.rows]
    · intro hid hzero c hc
      obtain ⟨f, hf, hbound⟩ := binds_insert he hafter commitId eventId hc
      exact hbinds (c, f) hf hbound
  | @update old new _ he hbefore hafter =>
    obtain ⟨T, rfl, rfl, hnew⟩ : ∃ T, S = old ::ₘ T ∧ S' = new ::ₘ T ∧ layout.Fits new := by
      cases hstep with
      | update hnew _ => exact ⟨_, rfl, rfl, hnew⟩
    have htoken := hkey old new rfl
    have hold : layout.Fits old := h.fits old (Multiset.mem_cons_self _ _)
    obtain ⟨hsparse, happly⟩ := apply_fromEvent_update commitId eventId hold hnew he hafter
    obtain ⟨hle, hzero, ⟨x, hx, hleaves⟩, hrep'⟩ := hall.update_ok hA hD hDfits he.before hrep
      h.simulates.fits hready.configured hready.keyColumns hold htoken hsparse happly hop
    obtain ⟨w', hupdated, hworn', hrows'⟩ := (hworn old).updated hle hzero hx hleaves.get
    refine h.of_key hready hleaves.beside hleaves.config hsettles hrep' ?_ hstep rfl
      (by rw [wearStep, if_pos rfl, hupdated]) hworn' ?_ (fun hmulti => absurd hmulti hleaves.multi)
      fun hid hzero => absurd (h.eq_zero hid hzero) Multiset.cons_ne_zero
    · intro s hs
      rcases Multiset.mem_cons.1 hs with rfl | hs
      · exact hnew
      · exact hothers _ s hs
    · rw [hrows', ← h.rows, ← htoken, rowsAt_cons_self, htoken, rowsAt_cons_self,
        Multiset.card_cons, Multiset.card_cons]
  | @delete old _ he hbefore hshow =>
    obtain rfl : S = old ::ₘ S' := by
      cases hstep with
      | delete => rfl
    have hremove := hop
    rw [operation, run_bind_eq_ok] at hremove
    obtain ⟨removed, item₃, hremove, hdone⟩ := hremove
    cases hdone
    obtain ⟨hle, hleaves, hrep'⟩ := hall.remove_ok hA he.before hrep hready.configured
      hready.keyColumns hremove
    have hrows := h.rows old
    rw [rowsAt_cons_self, Multiset.card_cons] at hrows
    obtain ⟨w', hdeleted, hworn', hrows'⟩ := (hworn old).deleted hle (by omega) hleaves.get
    exact h.of_key hready hleaves.beside hleaves.config hsettles hrep' (hothers _) hstep rfl
      (by rw [wearStep, if_pos rfl, hdeleted]) hworn' (by omega)
      (fun hmulti => absurd hmulti hleaves.multi)
      fun hid hzero => absurd (h.eq_zero hid hzero) Multiset.cons_ne_zero

/-- A described record raises only where the history says so. -/
theorem Wears.foldEvent_total (h : layout.Wears D item B S W) (hall : layout.KeyOnly)
    (hA : layout.Answers probe D) (hstep : layout.Step S event S')
    (hrender : layout.Renders event e) (hd : e.kind ≠ .truncate → layout.Described e)
    (hsteps : ∀ k, (layout.wearStep k (W k) event).isSome) :
    ∃ item', (foldEvent probe commitId (e, eventId)).run item = .ok () item' := by
  by_cases hkind : e.kind = .truncate
  · obtain rfl := hrender.eq_truncate hkind
    exact Layout.foldEvent_total commitId eventId hA h.simulates .truncate hrender hd trivial
  have hkey (old new : Row C V) (heq : event = .update old new) :
      layout.token new = layout.token old := by
    subst heq
    cases hstep with
    | update _ hkey => exact layout.token_eq_iff.2 hkey
  refine foldEvent_operation_total commitId eventId h.simulates hrender hkind (hd hkind) hkey
    fun item₁ hready => ?_
  have hrep := hready.same.represents h.simulates.represents
  have hseen (k : Token V) : item₁.seenAt k = item.seenAt k :=
    seenAt_congr (by rw [hready.same.live]) hready.same.truncated
  have hworn (r : Row C V) := (h.worn r).congr (hseen (layout.token r))
  cases hrender with
  | truncate ht _ => exact absurd ht hkind
  | insert he hafter => exact ⟨_, rfl⟩
  | @update old new _ he hbefore hafter =>
    have hself := hsteps (layout.token old)
    rw [wearStep, if_pos rfl] at hself
    obtain ⟨hle, hzero⟩ := (hworn old).of_updated hself
    exact hall.update_total hA he.before hrep hready.configured hready.keyColumns hle hzero
  | @delete old _ he hbefore hshow =>
    have hself := hsteps (layout.token old)
    rw [wearStep, if_pos rfl] at hself
    have htyped : layout.WellTyped e.beforeImage.image e.beforeImage.descriptors
        e.beforeImage.typed := he.before
    obtain ⟨removed, item₂, hremove⟩ := hall.remove_total hA htyped hrep hready.configured
      hready.keyColumns ((hworn old).le_of_deleted hself)
    exact ⟨item₂, by rw [operation, run_bind_of_ok hremove]; rfl⟩

end Record

end Layout

end CdcFlight
