import CdcFlight.Fold.Recorded
import CdcFlight.Fold.Represent

/-!
# The representation invariant of the fold

The fold keeps the rows that wear a key in a list and, beside the lists, the keys worn by two or
more rows, the answers of the destination about its own rows, the tombstones and the raw keys. Every
operation acts on what is held of one key; the invariant says of every key that what is held of it
fits together. It holds after every sequence of calls on the works of a commit group, of calls that
raise up to where they raise.

## Main definitions

* `CdcFlight.KeyRows`, `CdcFlight.TableWork.keyRows`: what the fold holds of a key.
* `CdcFlight.KeyRows.Sound`: what is held of a key fits together.
* `CdcFlight.RecordedWork.Coherent`: the invariant, as the fold's own maps and sets state it.

## Main results

* `CdcFlight.FoldContext.wp_update`, `CdcFlight.FoldContext.wp_remove`: one operation.
* `CdcFlight.FoldContext.wp_collect`: one event.
* `CdcFlight.FoldContext.coherentWorks_calls`: every sequence of calls.
-/

namespace CdcFlight

open Lib

variable {C V : Type}

/-! ### The rows in a list -/

/-- Whether an entry is a row of the group. -/
def Entry.isConcrete : Entry C V → Bool
  | .start => false
  | .patch _ => true
  | .move _ _ _ => true

/-- The rows of the group in a list. -/
def concreteRows (entries : List (Entry C V)) : List (Entry C V) := entries.filter Entry.isConcrete

/-- `START` is the first entry only, and there is none after a truncate. -/
def StartFirst (truncated : Bool) (entries : List (Entry C V)) : Prop :=
  ∀ i, entries[i]? = some .start → i = 0 ∧ truncated = false

section Lists

variable {truncated : Bool} {es : List (Entry C V)} {e : Entry C V} {i : ℕ}

@[simp] theorem isConcrete_eq_false : e.isConcrete = false ↔ e = .start := by
  cases e <;> simp [Entry.isConcrete]

theorem concreteRows_eq_nil : concreteRows es = [] ↔ ∀ e ∈ es, e = .start := by
  simp [concreteRows]

theorem StartFirst.nil : StartFirst truncated ([] : List (Entry C V)) := by
  intro i h
  simp at h

theorem StartFirst.start : StartFirst false [(.start : Entry C V)] := by
  intro i h
  cases i with
  | zero => exact ⟨rfl, rfl⟩
  | succ i => simp at h

theorem StartFirst.singleton (he : e.isConcrete = true) : StartFirst truncated [e] := by
  intro i h
  obtain rfl := List.mem_singleton.1 (List.mem_iff_getElem?.2 ⟨i, h⟩)
  cases he

/-- No `START` follows the first entry. -/
theorem StartFirst.notMem_tail (h : StartFirst truncated (e :: es)) : .start ∉ es := by
  intro hmem
  obtain ⟨i, hi⟩ := List.mem_iff_getElem?.1 hmem
  have hzero := (h (i + 1) (by simpa using hi)).1
  omega

theorem StartFirst.tail (h : StartFirst truncated (e :: es)) : StartFirst truncated es := by
  intro i hi
  exact absurd (List.mem_iff_getElem?.2 ⟨i, hi⟩) h.notMem_tail

theorem StartFirst.append (h : StartFirst truncated es) (he : e.isConcrete = true) :
    StartFirst truncated (es ++ [e]) := by
  intro i hi
  rw [List.getElem?_append] at hi
  split_ifs at hi with hlt
  · exact h i hi
  · obtain rfl := List.mem_singleton.1 (List.mem_iff_getElem?.2 ⟨_, hi⟩)
    cases he

theorem StartFirst.eraseIdx (h : StartFirst truncated es) :
    StartFirst truncated (es.eraseIdx i) := by
  intro j hj
  rw [List.getElem?_eraseIdx] at hj
  split_ifs at hj
  · exact h j hj
  · have hzero := (h (j + 1) hj).1
    omega

/-- What is rewritten is no `START`. -/
theorem getElem?_of_modify {f : Entry C V → Entry C V} (hf : ∀ e, f e ≠ .start) {j : ℕ}
    (h : (es.modify i f)[j]? = some .start) : es[j]? = some .start := by
  rw [List.getElem?_modify] at h
  cases hget : es[j]? with
  | none => simp [hget] at h
  | some e =>
    rw [hget, Option.map_eq_map, Option.map_some] at h
    by_cases hij : i = j
    · rw [if_pos hij] at h
      exact absurd (Option.some.inj h) (hf e)
    · rwa [if_neg hij] at h

theorem StartFirst.modify {f : Entry C V → Entry C V} (hf : ∀ e, f e ≠ .start)
    (h : StartFirst truncated es) : StartFirst truncated (es.modify i f) :=
  fun j hj => h j (getElem?_of_modify hf hj)

theorem start_mem_of_modify {f : Entry C V → Entry C V} (hf : ∀ e, f e ≠ .start)
    (h : .start ∈ es.modify i f) : .start ∈ es := by
  obtain ⟨j, hj⟩ := List.mem_iff_getElem?.1 h
  exact List.mem_iff_getElem?.2 ⟨j, getElem?_of_modify hf hj⟩

/-- Counting the rows as `_concrete` does, by the first entry. -/
theorem concrete_eq_length (h : StartFirst truncated es) :
    concrete es = (concreteRows es).length := by
  have hall {es : List (Entry C V)} (hes : .start ∉ es) : concreteRows es = es := by
    refine List.filter_eq_self.2 fun e he => ?_
    cases e with
    | start => exact absurd he hes
    | patch p => rfl
    | move s t p => rfl
  cases es with
  | nil => rfl
  | cons e es =>
    have htail := h.notMem_tail
    cases e with
    | start =>
      rw [concrete, concreteRows, List.filter_cons_of_neg (by simp), ← concreteRows, hall htail]
    | patch p => rw [hall (by simpa using htail)]; rfl
    | move s t p => rw [hall (by simpa using htail)]; rfl

/-- The condition of `_track`. -/
theorem track_iff (h : StartFirst truncated es) :
    1 < es.length ∧ 1 < concrete es ↔ 2 ≤ (concreteRows es).length := by
  rw [concrete_eq_length h]
  have hle : (concreteRows es).length ≤ es.length := List.length_filter_le _ _
  omega

end Lists

/-! ### What is held of a key -/

/-- What the fold holds of a key: its rows, whether it is worn by two or more, whether the
destination held a row under it, and its tombstone. -/
structure KeyRows (C V : Type) where
  entries : Option (List (Entry C V))
  multi : Bool
  present : Option Bool
  deleted : Bool

namespace KeyRows

/-- What is held of a key fits together. -/
structure Sound (truncated : Bool) (r : KeyRows C V) : Prop where
  start_first : ∀ es, r.entries = some es → StartFirst truncated es
  multi_iff : r.multi = true ↔ ∃ es, r.entries = some es ∧ 2 ≤ (concreteRows es).length
  absent : r.present = some false → ∀ es, r.entries = some es → .start ∉ es
  deleted : r.deleted = true → ∃ es, r.entries = some es ∧ concreteRows es = []
  /-- The destination is asked only about a key that has been seen. -/
  unseen : r.entries = none → r.present = none

variable {truncated : Bool} {r : KeyRows C V} {es es' : List (Entry C V)} {deleted : Bool}

/-- A key that has not been seen. -/
def fresh : KeyRows C V := ⟨none, false, none, false⟩

theorem sound_fresh : (fresh : KeyRows C V).Sound truncated where
  start_first := nofun
  multi_iff := ⟨nofun, fun ⟨_, h, _⟩ => nomatch h⟩
  absent := nofun
  deleted := nofun
  unseen _ := rfl

/-- First sight of a key. -/
def seed (truncated : Bool) (r : KeyRows C V) : KeyRows C V :=
  { r with entries := some (r.entries.getD (if truncated then [] else [.start])) }

theorem Sound.seed (h : r.Sound truncated) : (r.seed truncated).Sound truncated := by
  cases hentries : r.entries with
  | some es =>
    have hr : r.seed truncated = r := by
      cases r
      obtain rfl := hentries
      rfl
    rwa [hr]
  | none =>
    have hconcrete : concreteRows (if truncated then [] else [(.start : Entry C V)]) = [] := by
      cases truncated <;> rfl
    have hmulti : r.multi = false := by
      cases hmulti : r.multi with
      | false => rfl
      | true =>
        obtain ⟨es, hes, -⟩ := h.multi_iff.1 hmulti
        rw [hentries] at hes
        cases hes
    have hpresent := h.unseen hentries
    unfold KeyRows.seed
    rw [hentries, Option.getD_none]
    constructor
    · rintro es ⟨⟩
      cases truncated
      · exact .start
      · exact .nil
    · rw [hmulti]
      refine ⟨nofun, ?_⟩
      rintro ⟨es, ⟨⟩, hlength⟩
      rw [hconcrete] at hlength
      simp at hlength
    · intro habsent
      rw [hpresent] at habsent
      cases habsent
    · intro _
      exact ⟨_, rfl, hconcrete⟩
    · exact nofun

/-- The destination has answered, and `START` is dropped where it holds no row. -/
theorem Sound.resolve (h : r.Sound truncated) (hentries : r.entries = some (.start :: es))
    (present : Bool) :
    (if present then { r with present := some present }
      else { r with present := some present, entries := some es } : KeyRows C V).Sound
        truncated := by
  have hfirst := h.start_first _ hentries
  cases present
  · refine ⟨?_, ?_, ?_, ?_, nofun⟩
    · rintro _ ⟨⟩
      exact hfirst.tail
    · refine h.multi_iff.trans ?_
      simp [hentries, concreteRows, Entry.isConcrete]
    · rintro - _ ⟨⟩
      exact hfirst.notMem_tail
    · intro hdeleted
      obtain ⟨_, hes, hnil⟩ := h.deleted hdeleted
      obtain rfl := Option.some.inj (hentries.symm.trans hes)
      refine ⟨es, rfl, ?_⟩
      simpa [concreteRows, Entry.isConcrete] using hnil
  · exact ⟨h.start_first, h.multi_iff, nofun, h.deleted,
      fun hnone => nomatch hentries.symm.trans hnone⟩

/-- Other rows under a key that has been seen, tracked. -/
def tracked (r : KeyRows C V) (es : List (Entry C V)) (deleted : Bool) : KeyRows C V :=
  ⟨some es, decide (1 < es.length ∧ 1 < concrete es), r.present, deleted⟩

theorem Sound.tracked (h : r.Sound truncated) (hentries : r.entries = some es)
    (hfirst : StartFirst truncated es') (hstart : .start ∈ es' → .start ∈ es)
    (hdeleted : deleted = true → concreteRows es' = []) :
    (r.tracked es' deleted).Sound truncated where
  start_first := by
    rintro _ ⟨⟩
    exact hfirst
  multi_iff := by
    refine (decide_eq_true_iff.trans (track_iff hfirst)).trans ⟨fun hlength => ?_, ?_⟩
    · exact ⟨es', rfl, hlength⟩
    · rintro ⟨_, ⟨⟩, hlength⟩
      exact hlength
  absent := by
    rintro hpresent _ ⟨⟩ hmem
    exact h.absent hpresent es hentries (hstart hmem)
  deleted hd := ⟨es', rfl, hdeleted hd⟩
  unseen := nofun

end KeyRows

/-! ### What is held of every key -/

variable [DecidableEq V]

/-- What the fold holds of each key. -/
def TableWork.keyRows (item : TableWork C V) (k : Token V) : KeyRows C V :=
  ⟨item.live.get? k, decide (k ∈ item.multi), item.startPresent.get? k,
    decide (k ∈ item.deletedKeys)⟩

/-- What is held of each key fits together, and the keys with rows are known ones. -/
structure TableWork.Held (known : Token V → Prop) (item : TableWork C V) : Prop where
  sound : ∀ k, (item.keyRows k).Sound item.truncated
  known : ∀ k es, item.live.get? k = some es → known k

/-- Two states in which the same is held of each key. -/
structure TableWork.SameKeyRows (item item' : TableWork C V) : Prop where
  keyRows : item'.keyRows = item.keyRows
  truncated : item'.truncated = item.truncated

section Rows

variable {known known' : Token V → Prop} {item item' : TableWork C V} {key : Token V}
  {r : KeyRows C V} {es es' : List (Entry C V)}

namespace TableWork

theorem keyRows_eq {k : Token V} (hentries : item.live.get? k = r.entries)
    (hmulti : k ∈ item.multi ↔ r.multi = true) (hpresent : item.startPresent.get? k = r.present)
    (hdeleted : k ∈ item.deletedKeys ↔ r.deleted = true) : item.keyRows k = r := by
  cases r
  simp_all [keyRows]

theorem keyRows_setEntries : (item.setEntries key es).keyRows =
    Function.update item.keyRows key { item.keyRows key with entries := some es } := by
  refine Function.eq_update_iff.2 ⟨?_, fun j hj => ?_⟩
  · exact keyRows_eq (by simp) (by simp [keyRows, setEntries]) rfl (by simp [keyRows, setEntries])
  · exact keyRows_eq (by simp [hj, keyRows]) (by simp [keyRows, setEntries]) rfl
      (by simp [keyRows, setEntries])

theorem keyRows_cacheStart (present : Bool) : (item.cacheStart key present).keyRows =
    Function.update item.keyRows key { item.keyRows key with present := some present } := by
  refine Function.eq_update_iff.2 ⟨?_, fun j hj => ?_⟩
  · exact keyRows_eq rfl (by simp [keyRows, cacheStart]) (by simp [cacheStart])
      (by simp [keyRows, cacheStart])
  · exact keyRows_eq rfl (by simp [keyRows, cacheStart]) (by simp [hj, keyRows, cacheStart])
      (by simp [keyRows, cacheStart])

theorem keyRows_clearTombstone : (item.clearTombstone key).keyRows =
    Function.update item.keyRows key { item.keyRows key with deleted := false } := by
  refine Function.eq_update_iff.2 ⟨?_, fun j hj => ?_⟩
  · exact keyRows_eq rfl (by simp [keyRows, clearTombstone]) rfl (by simp [clearTombstone])
  · exact keyRows_eq rfl (by simp [keyRows, clearTombstone]) rfl
      (by simp [hj, keyRows, clearTombstone])

theorem keyRows_addTombstone : (item.addTombstone key).keyRows =
    Function.update item.keyRows key { item.keyRows key with deleted := true } := by
  refine Function.eq_update_iff.2 ⟨?_, fun j hj => ?_⟩
  · exact keyRows_eq rfl (by simp [keyRows, addTombstone]) rfl (by simp [addTombstone])
  · exact keyRows_eq rfl (by simp [keyRows, addTombstone]) rfl
      (by simp [hj, keyRows, addTombstone])

theorem keyRows_track (h : item.live.get? key = some es) : (item.track key).keyRows =
    Function.update item.keyRows key
      { item.keyRows key with multi := decide (1 < es.length ∧ 1 < concrete es) } := by
  have hentries : item.entriesAt key = es := by rw [TableWork.entriesAt, h, Option.getD_some]
  have hmulti (j : Token V) : j ∈ (item.track key).multi ↔
      if j = key then 1 < es.length ∧ 1 < concrete es else j ∈ item.multi := by
    unfold track
    dsimp only
    rw [hentries]
    split_ifs <;> simp_all
  refine Function.eq_update_iff.2 ⟨?_, fun j hj => ?_⟩
  · exact keyRows_eq rfl (by rw [hmulti, if_pos rfl, decide_eq_true_iff]) rfl
      (by simp [keyRows, track])
  · exact keyRows_eq rfl (by simp [hmulti, hj, keyRows]) rfl (by simp [keyRows, track])

theorem keyRows_seed : (item.seed key).keyRows =
    Function.update item.keyRows key ((item.keyRows key).seed item.truncated) := by
  unfold TableWork.seed
  cases h : item.live.get? key with
  | some es =>
    have hseed : (item.keyRows key).seed item.truncated = item.keyRows key := by
      simp [keyRows, KeyRows.seed, h]
    rw [hseed, Function.update_eq_self]
  | none =>
    dsimp only
    rw [keyRows_setEntries]
    simp [keyRows, KeyRows.seed, h]

namespace Held

/-- Other rows under one known key. -/
theorem update (h : item.Held known) (hrows : item'.keyRows = Function.update item.keyRows key r)
    (htruncated : item'.truncated = item.truncated) (hr : r.Sound item.truncated)
    (hkey : known key) : item'.Held known where
  sound k := by
    rw [hrows, htruncated]
    by_cases hk : k = key
    · subst hk
      rwa [Function.update_self]
    · rw [Function.update_of_ne hk]
      exact h.sound k
  known k es hes := by
    by_cases hk : k = key
    · exact hk ▸ hkey
    · have hentries : (item'.keyRows k).entries = (item.keyRows k).entries := by
        rw [hrows, Function.update_of_ne hk]
      exact h.known k es (hentries.symm.trans hes)

theorem same (h : item.Held known) (hsame : item.SameKeyRows item') : item'.Held known where
  sound k := by
    rw [hsame.keyRows, hsame.truncated]
    exact h.sound k
  known k es hes := h.known k es
    ((congrArg KeyRows.entries (congrFun hsame.keyRows k)).symm.trans hes)

theorem mono (h : item.Held known) (hle : ∀ k, known k → known' k) : item.Held known' where
  sound := h.sound
  known k es hes := hle k (h.known k es hes)

theorem seed (h : item.Held known) (hkey : known key) : (item.seed key).Held known := by
  refine h.update keyRows_seed ?_ (h.sound key).seed hkey
  unfold TableWork.seed
  split <;> rfl

/-- Other rows under a key that has been seen. -/
theorem retracked (h : item.Held known) (hentries : item.live.get? key = some es)
    (hfirst : StartFirst item.truncated es') (hstart : .start ∈ es' → .start ∈ es)
    (hdeleted : key ∈ item.deletedKeys → concreteRows es' = []) :
    ((item.setEntries key es').track key).Held known := by
  have hget : (item.setEntries key es').live.get? key = some es' := by
    rw [Layout.get?_setEntries, if_pos rfl]
  have hrows : ((item.setEntries key es').track key).keyRows = Function.update item.keyRows key
      ((item.keyRows key).tracked es' (item.keyRows key).deleted) := by
    rw [keyRows_track hget, keyRows_setEntries, Function.update_self, Function.update_idem]
    rfl
  exact h.update hrows rfl ((h.sound key).tracked hentries hfirst hstart fun hd =>
    hdeleted (of_decide_eq_true hd)) (h.known key es hentries)

/-- A key that has been seen is left without a row. -/
theorem buried (h : item.Held known) (hentries : item.live.get? key = some es) :
    (((item.setEntries key []).addTombstone key).track key).Held known := by
  have hget : ((item.setEntries key []).addTombstone key).live.get? key = some [] := by
    show (item.setEntries key []).live.get? key = some []
    rw [Layout.get?_setEntries, if_pos rfl]
  have hrows : (((item.setEntries key []).addTombstone key).track key).keyRows =
      Function.update item.keyRows key ((item.keyRows key).tracked [] true) := by
    rw [keyRows_track hget, keyRows_addTombstone, keyRows_setEntries, Function.update_self,
      Function.update_idem, Function.update_self, Function.update_idem]
    rfl
  exact h.update hrows rfl ((h.sound key).tracked hentries .nil (fun hmem => nomatch hmem)
    fun _ => rfl) (h.known key es hentries)

/-- The tombstone of a known key is cleared. -/
theorem cleared (h : item.Held known) (hkey : known key) :
    (item.clearTombstone key).Held known := by
  have hsound : ({ item.keyRows key with deleted := false } : KeyRows C V).Sound
      item.truncated := by
    obtain ⟨hfirst, hmulti, habsent, -, hunseen⟩ := h.sound key
    exact ⟨hfirst, hmulti, habsent, nofun, hunseen⟩
  exact h.update keyRows_clearTombstone rfl hsound hkey

/-- One more row wears a known key. -/
theorem place (h : item.Held known) (hkey : known key) (patch : RowPatch C V)
    (moveFrom : Option (Token V)) : (item.place key patch moveFrom).Held known := by
  have hseed := (h.cleared hkey).seed hkey
  have hentries := Layout.get?_seed (item.clearTombstone key) key
  have hdeleted : key ∉ ((item.clearTombstone key).seed key).deletedKeys := by
    have hkeep : ((item.clearTombstone key).seed key).deletedKeys = item.deletedKeys.erase key := by
      unfold TableWork.seed
      split <;> rfl
    rw [hkeep]
    exact Finset.notMem_erase key _
  unfold TableWork.place
  dsimp only
  refine hseed.retracked hentries (((hseed.sound key).start_first _ hentries).append ?_)
    (fun hmem => ?_) fun hmem => absurd hmem hdeleted
  · cases moveFrom <;> rfl
  · rcases List.mem_append.1 hmem with hmem | hmem
    · exact hmem
    · cases moveFrom <;> cases List.mem_singleton.1 hmem

theorem placeMoved [DecidableEq C] (h : item.Held known) (hkey : known key) (old : Token V)
    (patch : RowPatch C V)
    (removed : Option (Entry C V)) : (item.placeMoved key old patch removed).Held known := by
  unfold TableWork.placeMoved
  cases removed with
  | none => exact h.place hkey _ _
  | some e => cases e <;> exact h.place hkey _ _

/-- After a truncate nothing is held. -/
theorem truncate (item : TableWork C V) : item.truncate.Held known where
  sound k := by
    have hfresh : item.truncate.keyRows k = .fresh :=
      keyRows_eq rfl (by simp [TableWork.truncate, KeyRows.fresh]) rfl
        (by simp [TableWork.truncate, KeyRows.fresh])
    rw [hfresh]
    exact KeyRows.sound_fresh
  known k es h := nomatch h

end Held

/-- The rows of a key that has been seen hold together with all others, and no tombstone is set or
cleared. -/
structure Settled (known : Token V → Prop) (key : Token V) (item item' : TableWork C V) : Prop where
  held : item'.Held known
  seen : ∃ es, item'.live.get? key = some es
  deletedKeys : item'.deletedKeys = item.deletedKeys

theorem Settled.trans {item₁ : TableWork C V} (h : Settled known key item item₁)
    (h' : Settled known key item₁ item') : Settled known key item item' :=
  ⟨h'.held, h'.seen, h'.deletedKeys.trans h.deletedKeys⟩

theorem Redescribed.sameKeyRows (h : item.Redescribed item') : item.SameKeyRows item' := by
  obtain ⟨d, n, rfl⟩ := h
  exact ⟨rfl, rfl⟩

theorem settled_seed (h : item.Held known) (hkey : known key) :
    Settled known key item (item.seed key) where
  held := h.seed hkey
  seen := ⟨_, Layout.get?_seed item key⟩
  deletedKeys := by
    unfold TableWork.seed
    split <;> rfl

end TableWork

end Rows

/-! ### The operations -/

namespace FoldContext

variable [DecidableEq C] (ctx : FoldContext C V) {known : Token V → Prop}
  {item : TableWork C V} {key : Token V}

omit [DecidableEq C] in
/-- What a resolved `START` leaves. -/
theorem wp_resolveStart (h : item.Held known) (hseen : ∃ es, item.live.get? key = some es) :
    wp (ctx.resolveStart key) (fun _ => TableWork.Settled known key item) (·.Held known) item := by
  obtain ⟨es, hes⟩ := hseen
  have hstay : TableWork.Settled known key item item := ⟨h, ⟨es, hes⟩, rfl⟩
  unfold resolveStart
  simp only [wp_bind, wp_get]
  rw [Layout.entriesAt_of_get? hes]
  cases es with
  | nil => exact hstay
  | cons e es =>
    cases e with
    | patch p => exact hstay
    | move s t p => exact hstay
    | start =>
      have htruncated : item.truncated = false :=
        ((h.sound key).start_first _ hes 0 rfl).2
      have hanswer (present : Bool) : TableWork.Settled known key item
          (if present then item.cacheStart key present
            else (item.cacheStart key present).setEntries key es) := by
        have hsound := (h.sound key).resolve hes present
        have hkey := h.known key _ hes
        cases present
        · refine ⟨h.update ?_ rfl hsound hkey, ⟨es, ?_⟩, rfl⟩
          · show ((item.cacheStart key false).setEntries key es).keyRows = _
            rw [TableWork.keyRows_setEntries, TableWork.keyRows_cacheStart, Function.update_self,
              Function.update_idem]
            rfl
          · show ((item.cacheStart key false).setEntries key es).live.get? key = some es
            rw [Layout.get?_setEntries, if_pos rfl]
        · exact ⟨h.update (TableWork.keyRows_cacheStart true) rfl hsound hkey, ⟨_, hes⟩, rfl⟩
      dsimp only
      rw [if_neg (by rw [htruncated]; exact Bool.false_ne_true)]
      cases item.startPresent.get? key with
      | some present => exact hanswer present
      | none =>
        rw [wp_bind]
        exact wp_ofExcept (fun present _ => hanswer present) h

/-- What the settling of a lone `START` leaves. -/
theorem wp_settleStart (h : item.Held known) (hkey : known key) :
    wp (ctx.settleStart key) (fun _ => TableWork.Settled known key item) (·.Held known) item := by
  have hseed := TableWork.settled_seed h hkey
  unfold settleStart
  simp only [wp_bind, wp_modify, wp_get]
  refine wp_ite (fun _ => ?_) fun _ => hseed
  exact wp_mono (ctx.wp_resolveStart hseed.held hseed.seen) (fun _ _ ht => hseed.trans ht)
    fun _ ht => ht

variable [ColumnValue V] {before : BeforeImage C V} {what : Attributed}

/-- Attribution among two or more rows reads only. -/
theorem wp_attributeAmong : wp (ctx.attributeAmong key before what)
    (fun _ item' => item' = item) (fun item' => item' = item) item := by
  have hmatches {image : Image C V} (e : Entry C V) (item' : TableWork C V) (h : item' = item) :
      wp (ctx.matchesEntry key image e) (fun _ item' => item' = item) (fun item' => item' = item)
        item' := by
    cases e with
    | start =>
      unfold matchesEntry
      simp only [wp_bind, wp_get]
      exact wp_ofExcept (fun _ _ => h) h
    | patch p => exact h
    | move s t p => exact h
  unfold attributeAmong
  simp only [wp_bind, wp_get]
  refine wp_ite (fun _ => rfl) fun _ =>
    wp_ite (fun _ => wp_ite (fun _ => rfl) fun _ => rfl) fun _ => ?_
  rw [wp_bind]
  refine wp_mono (wp_mapM hmatches _ rfl) (fun answers item' h => ?_) fun _ h => h
  split
  · exact h
  · exact h

/-- What attribution leaves. -/
theorem wp_targetEntry (h : item.Held known) (hseen : ∃ es, item.live.get? key = some es) :
    wp (ctx.targetEntry key before what) (fun _ => TableWork.Settled known key item)
      (·.Held known) item := by
  have hattribute (item' : TableWork C V) (h' : TableWork.Settled known key item item')
      {m : Fold C V (Option ℕ)}
      (hm : m = pure none ∨ m = pure (some 0) ∨ m = ctx.attributeAmong key before what) :
      wp m (fun _ => TableWork.Settled known key item) (·.Held known) item' := by
    rcases hm with rfl | rfl | rfl
    · exact h'
    · exact h'
    · refine wp_mono ctx.wp_attributeAmong (fun _ t ht => ?_) fun t ht => ?_
      · exact ht ▸ h'
      · exact ht ▸ h'.held
  unfold targetEntry
  simp only [wp_bind, wp_get]
  refine wp_ite (fun _ => ?_) fun _ => ?_
  · rw [wp_bind]
    refine wp_mono (ctx.wp_resolveStart h hseen) (fun _ item' h' => ?_) fun _ ht => ht
    simp only [wp_bind, wp_get]
    exact hattribute item' h' (by split <;> simp)
  · simp only [wp_bind, wp_get]
    exact hattribute item ⟨h, hseen, rfl⟩ (by split <;> simp)

/-- The update of a row keeps what is held. -/
theorem wp_update (h : item.Held known) (hkey : known key) (patch : RowPatch C V) :
    wp (ctx.update key patch before) (fun _ => (·.Held known)) (·.Held known) item := by
  unfold update
  simp only [wp_bind, wp_get]
  refine wp_ite (fun _ => h) fun hdeleted => ?_
  rw [wp_bind]
  refine wp_mono (ctx.wp_settleStart h hkey) (fun _ item₁ h₁ => ?_) fun _ ht => ht
  refine wp_ite (fun _ => ?_) fun _ => ?_
  · simp only [wp_bind, wp_get]
    exact wp_ite (fun _ => h₁.held.place hkey _ _) fun _ => h₁.held
  · rw [wp_bind]
    refine wp_mono (ctx.wp_targetEntry h₁.held h₁.seen) (fun index item₂ h₂ => ?_) fun _ ht => ht
    obtain ⟨es, hes⟩ := h₂.seen
    have hfirst := (h₂.held.sound key).start_first es hes
    have hundeleted : key ∉ item₂.deletedKeys := by
      rwa [h₂.deletedKeys, h₁.deletedKeys]
    cases index with
    | none =>
      exact h₂.held.retracked hes (.singleton rfl)
        (fun hmem => Entry.noConfusion rfl rfl (heq_of_eq (List.mem_singleton.1 hmem)))
        fun hd => absurd hd hundeleted
    | some i =>
      have hupdated (e : Entry C V) : e.updated patch ≠ .start := by
        cases e <;> simp [Entry.updated]
      rw [wp_modify, Layout.entriesAt_of_get? hes]
      exact h₂.held.retracked hes (hfirst.modify hupdated) (start_mem_of_modify hupdated)
        fun hd => absurd hd hundeleted

/-- The removal of a row keeps what is held. -/
theorem wp_remove (h : item.Held known) (hkey : known key) :
    wp (ctx.remove key before) (fun _ => (·.Held known)) (·.Held known) item := by
  unfold remove
  rw [wp_bind]
  refine wp_mono (ctx.wp_settleStart h hkey) (fun _ item₁ h₁ => ?_) fun _ ht => ht
  rw [wp_bind]
  refine wp_mono (ctx.wp_targetEntry h₁.held h₁.seen) (fun index item₂ h₂ => ?_) fun _ ht => ht
  obtain ⟨es, hes⟩ := h₂.seen
  have hsound := h₂.held.sound key
  have hleft (left : List (Entry C V)) (hfirst : StartFirst item₂.truncated left)
      (hsub : ∀ e ∈ left, e ∈ es) : ((item₂.setEntries key left).track key).Held known := by
    refine h₂.held.retracked hes hfirst (hsub _) fun hdeleted => ?_
    obtain ⟨_, hes', hnil⟩ := hsound.deleted (decide_eq_true hdeleted)
    obtain rfl := Option.some.inj (hes.symm.trans hes')
    exact concreteRows_eq_nil.2 fun e he => concreteRows_eq_nil.1 hnil e (hsub e he)
  rw [wp_bind, wp_get, Layout.entriesAt_of_get? hes, wp_bind, wp_modify]
  cases index with
  | none => exact h₂.held.buried hes
  | some i =>
    refine wp_ite (fun hnil => ?_) fun _ => ?_
    · simp only [wp_bind, wp_modify, wp_pure]
      rw [show es.eraseIdx i = [] from hnil]
      exact h₂.held.buried hes
    · simp only [wp_bind, wp_modify, wp_pure]
      exact hleft _ (hsound.start_first es hes).eraseIdx fun e he => List.mem_of_mem_eraseIdx he

omit [ColumnValue V] in
/-- The incremental read keeps what is held. -/
theorem wp_collectIncremental (h : item.Held known) (hkey : known key) (patch : RowPatch C V) :
    wp (ctx.collectIncremental key patch) (fun _ => (·.Held known)) (·.Held known) item := by
  unfold collectIncremental
  rw [wp_bind]
  refine wp_mono (ctx.wp_settleStart h hkey) (fun _ item₁ h₁ => ?_) fun _ ht => ht
  rw [wp_bind, wp_get]
  refine wp_ite (fun _ => h₁.held) fun _ => ?_
  have hinc : ({ item₁ with
      incrementalKeys := insert key item₁.incrementalKeys } : TableWork C V).Held known :=
    h₁.held.same ⟨rfl, rfl⟩
  exact hinc.place hkey _ _

/-! ### Parts of the fold that leave the rows alone -/

variable [ToString C] {event : PendingRecord C V} {eventId : String} {patch : RowPatch C V}

omit [DecidableEq V] [ColumnValue V] in
/-- The complete image of a patch reads only. -/
theorem wp_completeImage {after : Bool} : wp (ctx.completeImage patch after)
    (fun _ item' => item' = item) (fun item' => item' = item) item := by
  have hcolumn (column : C) (item' : TableWork C V) (h : item' = item) :
      wp (completeColumn patch after column) (fun _ item' => item' = item)
        (fun item' => item' = item) item' := by
    unfold completeColumn
    split
    · exact h
    · exact h
  have himage : wp (CdcFlight.completeImage patch after) (fun _ item' => item' = item)
      (fun item' => item' = item) item := by
    unfold CdcFlight.completeImage
    rw [wp_bind, wp_get]
    refine wp_ite (fun _ => rfl) fun _ => ?_
    rw [wp_bind]
    exact wp_mapM hcolumn _ rfl
  unfold completeImage
  rw [wp_bind, wp_get]
  refine wp_ite (fun _ => ?_) fun _ => himage
  rw [wp_bind]
  exact wp_ofExcept (fun _ _ => himage) rfl

/-- The fold of a keyless table leaves the rows alone. -/
theorem wp_collectKeyless : wp (ctx.collectKeyless event eventId patch)
    (fun _ => item.SameKeyRows) item.SameKeyRows item := by
  have hstay : item.SameKeyRows item := ⟨rfl, rfl⟩
  have hadmit (operation : KeylessOperation C V) :
      wp (do
        ask (ctx.digestPayload event)
        modify (·.admitKeyless event eventId operation) : Fold C V Unit)
        (fun _ => item.SameKeyRows) item.SameKeyRows item := by
    rw [wp_bind]
    exact wp_ofExcept (fun _ _ => ⟨rfl, rfl⟩) hstay
  have himage {patch : RowPatch C V} {after : Bool} {rest : Image C V → Fold C V Unit}
      (hrest : ∀ image, wp (rest image) (fun _ => item.SameKeyRows) item.SameKeyRows item) :
      wp (ctx.completeImage patch after >>= rest) (fun _ => item.SameKeyRows) item.SameKeyRows
        item := by
    rw [wp_bind]
    refine wp_mono ctx.wp_completeImage (fun image item' h => ?_) fun item' h => ?_
    · exact h ▸ hrest image
    · exact h ▸ hstay
  have happlied : wp (ctx.keylessApplied item eventId) (fun _ item' => item' = item)
      (fun item' => item' = item) item :=
    wp_ite (fun _ => rfl) fun _ => wp_ofExcept (fun _ _ => rfl) rfl
  unfold collectKeyless
  rw [wp_bind, wp_get, wp_bind]
  refine wp_mono happlied (fun applied item' h => ?_) fun item' h => h ▸ hstay
  subst h
  refine wp_ite (fun _ => hstay) fun _ => wp_ite (fun _ => hstay) fun _ => ?_
  refine wp_ite (fun _ => himage fun before => hadmit _) fun _ => ?_
  refine wp_ite (fun _ => himage fun before => ?_) fun _ => wp_ite (fun _ => hstay) fun _ => ?_
  · rw [wp_bind]
    exact wp_ofExcept (fun _ _ => himage fun _ => hadmit _) hstay
  · rw [wp_bind]
    exact wp_ofExcept (fun _ _ => hadmit _) hstay

omit [DecidableEq C] [ColumnValue V] [ToString C] in
/-- The second half of `work_for` leaves the rows alone. -/
theorem wp_observe {deleteMode : Option DeleteMode} : wp (observe event deleteMode)
    (fun _ => item.SameKeyRows) item.SameKeyRows item := by
  unfold observe
  rw [wp_bind, wp_get]
  refine wp_ite (fun _ => ⟨rfl, rfl⟩) fun _ => ?_
  have hrecord : item.SameKeyRows (item.recordSource event) := by
    unfold TableWork.recordSource
    split_ifs <;> exact ⟨rfl, rfl⟩
  have hidentify : (item.recordSource event).SameKeyRows
      ((item.recordSource event).identify event) := by
    unfold TableWork.identify
    split_ifs <;> exact ⟨rfl, rfl⟩
  exact ⟨hidentify.keyRows.trans hrecord.keyRows, hidentify.truncated.trans hrecord.truncated⟩

end FoldContext

/-! ### The key records -/

namespace RecordedWork

/-- The raw key and the descriptors of a fold key are recorded. -/
def Knows (record : RecordedWork C V) (k : Token V) : Prop :=
  (record.keyValues.get? k).isSome ∧ (record.keyDescriptors.get? k).isSome

/-- What is held of each key fits together, the keys with rows are recorded and so are the given
keys. -/
structure Kept (keys : Token V → Prop) (record : RecordedWork C V) : Prop where
  held : record.toTableWork.Held record.Knows
  knows : ∀ k, keys k → record.Knows k

variable {keys : Token V → Prop} {record : RecordedWork C V}

omit [DecidableEq V] in
theorem wp_onWork {α : Type} {m : Fold C V α} {Q : α → RecordedWork C V → Prop}
    {R : RecordedWork C V → Prop} : wp (onWork m) Q R record ↔
      wp m (fun a item => Q a (record.withWork item)) (fun item => R (record.withWork item))
        record.toTableWork := by
  unfold wp
  rw [EStateM.run, onWork]
  cases m.run record.toTableWork <;> exact Iff.rfl

/-- A program on the table work that keeps what is held. -/
theorem Kept.onWork {α : Type} {m : Fold C V α} (h : record.Kept keys)
    (hm : wp m (fun _ => (·.Held record.Knows)) (·.Held record.Knows) record.toTableWork) :
    wp (onWork m) (fun _ => (·.Kept keys)) (·.Kept keys) record :=
  wp_onWork.2 (wp_mono hm (fun _ _ hitem => ⟨hitem, h.knows⟩) fun _ hitem => ⟨hitem, h.knows⟩)

/-- A program on the table work that leaves the rows alone. -/
theorem Kept.onWork_same {α : Type} {m : Fold C V α} (h : record.Kept keys)
    (hm : wp m (fun _ => record.toTableWork.SameKeyRows) record.toTableWork.SameKeyRows
      record.toTableWork) :
    wp (CdcFlight.onWork m) (fun _ => (·.Kept keys)) (·.Kept keys) record :=
  h.onWork (wp_mono hm (fun _ _ hitem => h.held.same hitem) fun _ hitem => h.held.same hitem)

theorem Kept.mono {keys' : Token V → Prop} (h : record.Kept keys)
    (hle : ∀ k, keys' k → keys k) : record.Kept keys' :=
  ⟨h.held, fun k hk => h.knows k (hle k hk)⟩

/-- A recorded key is known, and the keys known before stay known. -/
theorem Kept.recordKey [DecidableEq C] (h : record.Kept keys)
    (components : List (FoldContext.KeyComponent C V)) :
    (FoldContext.recordKey components record).Kept
      fun k => k = components.map (·.token) ∨ keys k := by
  have hknows (k : Token V) (hk : k = components.map (·.token) ∨ record.Knows k) :
      (FoldContext.recordKey components record).Knows k := by
    unfold Knows FoldContext.recordKey
    dsimp only
    rw [Dict.get?_set, Dict.get?_set]
    by_cases heq : k = components.map (·.token)
    · rw [if_pos heq, if_pos heq]
      exact ⟨rfl, rfl⟩
    · rw [if_neg heq, if_neg heq]
      exact hk.resolve_left heq
  exact ⟨h.held.mono fun k hk => hknows k (.inr hk),
    fun k hk => hknows k (hk.imp_right (h.knows k))⟩

end RecordedWork

/-! ### Events and calls -/

namespace FoldContext

variable [DecidableEq C] [ColumnValue V] [ToString C] (ctx : FoldContext C V)
  {keys : Token V → Prop} {record : RecordedWork C V} {event : PendingRecord C V}
  {eventId : String} {patch : RowPatch C V} {key : Token V}

omit [ColumnValue V] in
/-- A fold key is recorded before it is used. -/
theorem wp_keyToken (h : record.Kept keys) {values : C → Option V}
    {descriptors : Dict C Descriptor} {updateNative : Bool} :
    wp (ctx.keyToken values descriptors updateNative)
      (fun key record' => record'.Kept fun k => k = key ∨ keys k) (·.Kept keys) record := by
  unfold keyToken
  rw [wp_bind, wp_get, wp_bind]
  have hcomponents := wp_mono
    (wp_keyComponents ctx descriptors updateNative
      ((ctx.keyColumns record.toTableWork).map fun c => (c, values c)) record.toTableWork)
    (fun _ _ hitem => hitem.sameKeyRows) fun _ hitem => hitem.sameKeyRows
  exact wp_mono (h.onWork_same hcomponents) (fun components _ ht => ht.recordKey components)
    fun _ ht => ht

theorem wp_collectDelete (h : record.Kept keys) :
    wp (ctx.collectDelete event eventId) (fun _ => (·.Kept keys)) (·.Kept keys) record := by
  unfold collectDelete
  rw [wp_bind]
  refine wp_mono (ctx.wp_keyToken h) (fun key record₁ h₁ => ?_) fun _ ht => ht
  refine (h₁.mono fun k hk => .inr hk).onWork ?_
  rw [wp_bind]
  refine wp_mono (ctx.wp_remove h₁.held (h₁.knows key (.inl rfl))) (fun _ item h₂ => ?_)
    fun _ ht => ht
  rw [wp_bind]
  exact wp_ofExcept (fun _ _ => h₂.same ⟨rfl, rfl⟩) h₂

theorem wp_collectUpdate (h : record.Kept keys) (hkey : keys key) :
    wp (ctx.collectUpdate event key patch) (fun _ => (·.Kept keys)) (·.Kept keys) record := by
  have hreplace {record : RecordedWork C V} (h : record.Kept keys) : wp (onWork do
      ask (ctx.encodedValues patch)
      ctx.update key patch event.beforeImage) (fun _ => (·.Kept keys)) (·.Kept keys) record := by
    refine h.onWork ?_
    rw [wp_bind]
    exact wp_ofExcept (fun _ _ => ctx.wp_update h.held (h.knows key hkey) patch) h.held
  unfold collectUpdate
  dsimp only
  refine wp_ite (fun _ => hreplace h) fun _ => ?_
  cases event.key with
  | none => exact h
  | some keyImage =>
    refine wp_ite (fun _ => ?_) fun _ => hreplace h
    rw [wp_bind]
    refine wp_mono (ctx.wp_keyToken h) (fun old record₁ h₁ => ?_) fun _ ht => ht
    have hkeys := h₁.mono fun k hk => .inr hk
    refine wp_ite (fun _ => hreplace hkeys) fun _ => hkeys.onWork ?_
    rw [wp_bind]
    refine wp_mono (ctx.wp_remove h₁.held (h₁.knows old (.inl rfl))) (fun removed item h₂ => ?_)
      fun _ ht => ht
    have hadd : (item.addCdcKey old).Held record₁.Knows := h₂.same ⟨rfl, rfl⟩
    rw [wp_bind, wp_modify, wp_bind]
    exact wp_ofExcept (fun _ _ => hadd.placeMoved (hkeys.knows key hkey) old patch removed) hadd

theorem wp_collectKeyed (h : record.Kept keys) :
    wp (ctx.collectKeyed event eventId patch) (fun _ => (·.Kept keys)) (·.Kept keys) record := by
  unfold collectKeyed
  rw [wp_bind]
  refine wp_mono (ctx.wp_keyToken h) (fun key record₁ h₁ => ?_) fun _ ht => ht
  have hkey := h₁.knows key (.inl rfl)
  have hkeys := h₁.mono fun k hk => .inr hk
  refine wp_ite (fun _ => hkeys.onWork (ctx.wp_collectIncremental h₁.held hkey patch)) fun _ => ?_
  rw [wp_bind]
  refine wp_mono (h₁.onWork_same ⟨rfl, rfl⟩) (fun _ record₂ h₂ => ?_) fun _ ht =>
    ht.mono fun k hk => .inr hk
  have hkeys₂ := h₂.mono fun k hk => .inr hk
  refine wp_ite (fun _ => ctx.wp_collectDelete hkeys₂) fun _ => ?_
  refine wp_ite (fun _ => ?_) fun _ => ?_
  · exact wp_mono (ctx.wp_collectUpdate h₂ (.inl rfl)) (fun _ _ ht => ht.mono fun k hk => .inr hk)
      fun _ ht => ht.mono fun k hk => .inr hk
  · refine hkeys₂.onWork ?_
    rw [wp_bind]
    exact wp_ofExcept (fun _ _ => h₂.held.place (h₂.knows key (.inl rfl)) _ _) h₂.held

/-- **One event**: `collect` keeps what is held, also where it raises. -/
theorem wp_collect (h : record.Kept keys) {given : Option (RowPatch C V)} :
    wp (ctx.collect event eventId given) (fun _ => (·.Kept keys)) (·.Kept keys) record := by
  unfold collect
  refine wp_ite (fun _ => ?_) fun _ => ?_
  · have htruncate : record.toTableWork.truncate.Held record.Knows := .truncate _
    exact h.onWork (htruncate.same ⟨rfl, rfl⟩)
  rw [wp_bind, wp_get]
  dsimp only
  rw [wp_bind]
  refine wp_mono (h.onWork_same ?_) (fun patch record₁ h₁ => ?_) fun _ ht => ht
  · cases given with
    | some patch => exact ⟨rfl, rfl⟩
    | none => exact wp_ofExcept (fun _ _ => ⟨rfl, rfl⟩) ⟨rfl, rfl⟩
  rw [wp_bind]
  refine wp_mono (h₁.onWork_same (wp_mono (wp_declareFields _ _ _) (fun _ _ ht => ht.sameKeyRows)
    fun _ ht => ht.sameKeyRows)) (fun _ record₂ h₂ => ?_) fun _ ht => ht
  rw [wp_bind]
  refine wp_mono (h₂.onWork_same ⟨rfl, rfl⟩) (fun _ record₃ h₃ => ?_) fun _ ht => ht
  refine wp_ite (fun _ => h₃.onWork_same ⟨rfl, rfl⟩) fun _ => ?_
  rw [wp_bind, wp_get]
  exact wp_ite (fun _ => h₃.onWork_same ctx.wp_collectKeyless) fun _ => ctx.wp_collectKeyed h₃

/-- **One call**: every call on the work of a table keeps what is held, also where it raises. -/
theorem wp_run (call : FoldCall C V) (h : record.Kept keys) :
    wp (ctx.run call) (fun _ => (·.Kept keys)) (·.Kept keys) record := by
  cases call with
  | workFor event snapshot incremental deleteMode =>
    refine h.onWork_same (wp_ite (fun _ => ?_) fun _ => wp_observe)
    rw [wp_bind, wp_modify]
    exact wp_mono wp_observe (fun _ _ ht => ⟨ht.keyRows, ht.truncated⟩)
      fun _ ht => ⟨ht.keyRows, ht.truncated⟩
  | collect event eventId patch => exact ctx.wp_collect h
  | truncate => exact h.onWork ((wp_modify _).2 (.truncate record.toTableWork))
  | endTransaction =>
    refine h.onWork_same ?_
    show wp endTransaction _ _ _
    unfold endTransaction
    rw [wp_bind, wp_get]
    exact wp_ite (fun _ => ⟨rfl, rfl⟩) fun _ => ⟨rfl, rfl⟩

end FoldContext

/-! ### The invariant -/

/-- The representation invariant of the work of a table. -/
structure RecordedWork.Coherent (record : RecordedWork C V) : Prop where
  /-- `START` is the first entry of a list only, and there is none after a truncate. -/
  start_first : ∀ k es, record.live.get? k = some es →
    ∀ i, es[i]? = some .start → i = 0 ∧ record.truncated = false
  /-- `multi` are the keys with two or more concrete entries. -/
  multi_iff : ∀ k, k ∈ record.multi ↔
    ∃ es, record.live.get? k = some es ∧ 2 ≤ (concreteRows es).length
  /-- A key under which the destination holds no row has no `START`. -/
  absent : ∀ k, record.startPresent.get? k = some false →
    ∀ es, record.live.get? k = some es → .start ∉ es
  /-- A key with a tombstone has a list without concrete entries. -/
  deleted : ∀ k ∈ record.deletedKeys,
    ∃ es, record.live.get? k = some es ∧ concreteRows es = []
  /-- The raw key and the descriptors of a live key are recorded. -/
  recorded : ∀ k es, record.live.get? k = some es →
    (record.keyValues.get? k).isSome ∧ (record.keyDescriptors.get? k).isSome

theorem RecordedWork.Kept.coherent {keys : Token V → Prop} {record : RecordedWork C V}
    (h : record.Kept keys) : record.Coherent where
  start_first k := (h.held.sound k).start_first
  multi_iff k := decide_eq_true_iff.symm.trans (h.held.sound k).multi_iff
  absent k := (h.held.sound k).absent
  deleted k hk := (h.held.sound k).deleted (decide_eq_true hk)
  recorded := h.held.known

/-- The invariant of every work of a commit group: what is held of each key of each table fits
together. -/
def CoherentWorks (works : Dict String (RecordedWork C V)) : Prop :=
  ∀ target record, works.get? target = some record → record.Coherent

namespace FoldContext

variable [DecidableEq C] [ColumnValue V] [ToString C] (ctx : FoldContext C V)

/-- What is held in every work of a commit group fits together. -/
def KeptWorks (works : Dict String (RecordedWork C V)) : Prop :=
  ∀ target record, works.get? target = some record → record.Kept fun _ => False

omit [DecidableEq C] [ColumnValue V] [ToString C] in
/-- The work of a target seen for the first time. -/
theorem kept_created {target : String} {call : FoldCall C V} {record : RecordedWork C V}
    (h : call.created target = some record) : record.Kept fun _ => False := by
  cases call with
  | workFor event snapshot incremental deleteMode =>
    obtain rfl := Option.some.inj h
    refine ⟨⟨fun k => ?_, fun k es hes => nomatch hes⟩, fun k hk => hk.elim⟩
    have hfresh : (TableWork.create target event snapshot incremental deleteMode).keyRows k =
        .fresh := TableWork.keyRows_eq rfl (by simp [TableWork.create, KeyRows.fresh]) rfl
          (by simp [TableWork.create, KeyRows.fresh])
    rw [hfresh]
    exact KeyRows.sound_fresh
  | collect event eventId patch => cases h
  | truncate => cases h
  | endTransaction => cases h

/-- One call keeps what is held in the works of the group. -/
theorem keptWorks_call {works : Dict String (RecordedWork C V)} (h : KeptWorks works)
    (p : String × FoldCall C V) : KeptWorks (ctx.call works p) := by
  unfold call
  cases hfound : (works.get? p.1).or (p.2.created p.1) with
  | none => exact h
  | some record =>
    have hrecord : record.Kept fun _ => False := by
      rcases Option.or_eq_some_iff.1 hfound with hget | ⟨-, hcreated⟩
      · exact h p.1 record hget
      · exact kept_created hcreated
    have hstate : (stateOf ((ctx.run p.2).run record)).Kept fun _ => False := by
      have hrun := ctx.wp_run p.2 hrecord
      unfold wp at hrun
      cases hresult : (ctx.run p.2).run record with
      | ok a t =>
        rw [hresult] at hrun
        exact hrun
      | error e t =>
        rw [hresult] at hrun
        exact hrun
    intro target record' hget
    dsimp only at hget
    rw [Dict.get?_set] at hget
    split_ifs at hget with htarget
    · exact Option.some.inj hget ▸ hstate
    · exact h target record' hget

/-- **The representation invariant**: after every sequence of calls on the works of a commit group,
of calls that raise up to where they raise, every work is coherent. -/
theorem coherentWorks_calls (calls : List (String × FoldCall C V)) :
    CoherentWorks (calls.foldl ctx.call ∅) := by
  have hkept : KeptWorks (calls.foldl ctx.call ∅) := by
    refine List.foldlRecOn calls ctx.call (fun target record h => nomatch h) ?_
    exact fun works h p _ => ctx.keptWorks_call h p
  exact fun target record h => (hkept target record h).coherent

end FoldContext

end CdcFlight
