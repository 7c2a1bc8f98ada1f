import CdcFlight.Source.History

/-!
# What a keyed fold stands for

Given the rows `D` that the destination held before the group, every entry of a fold denotes a
multiset of source rows: `START` the destination's row under the key, a complete image the row it
binds, a sparse image the destination's row with the image applied. The fold represents a source
state when the rows of each key are the sum of what its entries denote.

## Main definitions

* `CdcFlight.Layout.denote`: the rows an entry stands for.
* `CdcFlight.Layout.Represents`: the simulation relation between a fold and a source state.

## Main results

* `CdcFlight.Layout.Represents.truncate`, `CdcFlight.Layout.Represents.place`,
  `CdcFlight.Layout.Represents.put`: the operations of the fold follow the source's.
* `CdcFlight.Layout.Represents.resolveStart`: a probe changes nothing that is represented.
-/

namespace CdcFlight

open Lib

namespace Layout

variable {C V : Type} [DecidableEq C] [DecidableEq V] (layout : Layout C)

/-- The rows that wear a fold key. -/
def rowsAt (S : Multiset (Row C V)) (k : Token V) : Multiset (Row C V) := under layout.token S k

/-- The source rows an entry under a key stands for. -/
def denote (D : Multiset (Row C V)) (k : Token V) : Entry C V → Multiset (Row C V)
  | .start => layout.rowsAt D k
  | .patch p => if p.complete then {p.apply fun _ => none} else (layout.rowsAt D k).map p.apply
  | .move _ _ _ => 0

/-- The rows a list of entries stands for. -/
def denoteAll (D : Multiset (Row C V)) (k : Token V) (entries : List (Entry C V)) :
    Multiset (Row C V) :=
  (entries.map (layout.denote D k)).sum

/-- The shape of an entry list: `START` only at its head and not after a truncate, no moves, and a
sparse image only over a row of the destination. -/
structure WellFormed (D : Multiset (Row C V)) (truncated : Bool) (k : Token V)
    (entries : List (Entry C V)) : Prop where
  start_head : Entry.start ∉ entries.tail
  start_truncated : truncated = true → Entry.start ∉ entries
  no_move : ∀ source target p, Entry.move source target p ∉ entries
  sparse : ∀ p, Entry.patch p ∈ entries → p.complete = false →
    truncated = false ∧ layout.rowsAt D k ≠ 0

/-- **The simulation relation.** The fold stands for the source state `S`, given the rows `D` the
destination held before the group. -/
structure Represents (D : Multiset (Row C V)) (item : TableWork C V) (S : Multiset (Row C V)) :
    Prop where
  unseen : ∀ k, item.live.get? k = none →
    layout.rowsAt S k = if item.truncated then 0 else layout.rowsAt D k
  seen : ∀ k entries, item.live.get? k = some entries →
    layout.rowsAt S k = layout.denoteAll D k entries
  wellFormed : ∀ k entries, item.live.get? k = some entries →
    layout.WellFormed D item.truncated k entries
  isToken : ∀ k entries, item.live.get? k = some entries → ∃ r : Row C V, k = layout.token r
  deleted : ∀ k ∈ item.deletedKeys, item.live.get? k = some []
  present : ∀ k b, item.startPresent.get? k = some b → (b = true ↔ layout.rowsAt D k ≠ 0)

variable {layout} {D S S' : Multiset (Row C V)} {item item' : TableWork C V} {k : Token V}

/-! ### Rows under a key -/

omit [DecidableEq C] in
theorem rowsAt_cons_self (r : Row C V) (S : Multiset (Row C V)) :
    layout.rowsAt (r ::ₘ S) (layout.token r) = r ::ₘ layout.rowsAt S (layout.token r) :=
  under_cons_self _ _ _

omit [DecidableEq C] in
theorem rowsAt_cons_of_ne {r : Row C V} (h : layout.token r ≠ k) :
    layout.rowsAt (r ::ₘ S) k = layout.rowsAt S k :=
  under_cons_of_ne _ _ h

omit [DecidableEq C] in
theorem mem_rowsAt {r : Row C V} : r ∈ layout.rowsAt S k ↔ r ∈ S ∧ layout.token r = k :=
  mem_under _

omit [DecidableEq C] in
/-- Distinct keys leave at most one row under each fold key. -/
theorem KeysDistinct.card_rowsAt_le (h : layout.KeysDistinct S) (k : Token V) :
    (layout.rowsAt S k).card ≤ 1 := by
  have hsub : (layout.rowsAt S k).map layout.key ≤ S.map layout.key :=
    Multiset.map_le_map (Multiset.filter_le _ S)
  have hconst : ∀ x ∈ (layout.rowsAt S k).map layout.key, rawKey k = x := by
    intro x hx
    obtain ⟨r, hr, rfl⟩ := Multiset.mem_map.1 hx
    rw [← (mem_rowsAt.1 hr).2, rawKey_token]
  calc (layout.rowsAt S k).card
      = ((layout.rowsAt S k).map layout.key).card := (Multiset.card_map _ _).symm
    _ = ((layout.rowsAt S k).map layout.key).count (rawKey k) :=
      (Multiset.count_eq_card.2 hconst).symm
    _ ≤ 1 := Multiset.nodup_iff_count_le_one.1 (Multiset.nodup_of_le hsub h) _

omit [DecidableEq C] [DecidableEq V] in
/-- Where at most one row can be, the row found is all there is. -/
theorem eq_singleton_of_mem {s : Multiset (Row C V)} {r : Row C V} (hs : s.card ≤ 1)
    (hr : r ∈ s) : s = {r} := by
  obtain ⟨t, rfl⟩ := Multiset.exists_cons_of_mem hr
  rw [Multiset.card_cons] at hs
  have ht : t = 0 := Multiset.card_eq_zero.1 (by omega)
  rw [ht]
  rfl

theorem card_denote_le (hD : layout.KeysDistinct D) (k : Token V) (e : Entry C V) :
    (layout.denote D k e).card ≤ 1 := by
  cases e with
  | start => exact hD.card_rowsAt_le k
  | patch p =>
    simp only [denote]
    split_ifs with h
    · simp
    · rw [Multiset.card_map]
      exact hD.card_rowsAt_le k
  | move s t p => simp [denote]

@[simp] theorem denoteAll_nil : layout.denoteAll D k [] = 0 := rfl

@[simp] theorem denoteAll_cons (e : Entry C V) (es : List (Entry C V)) :
    layout.denoteAll D k (e :: es) = layout.denote D k e + layout.denoteAll D k es := by
  simp [denoteAll]

@[simp] theorem denoteAll_append (es fs : List (Entry C V)) :
    layout.denoteAll D k (es ++ fs) = layout.denoteAll D k es + layout.denoteAll D k fs := by
  simp [denoteAll]

/-- Replacing one entry replaces what it denotes. -/
theorem denoteAll_modify (layout : Layout C) (D : Multiset (Row C V)) (k : Token V)
    {es : List (Entry C V)} {i : ℕ} {e : Entry C V} (h : es[i]? = some e)
    (f : Entry C V → Entry C V) :
    layout.denoteAll D k (es.modify i f) + layout.denote D k e =
      layout.denoteAll D k es + layout.denote D k (f e) := by
  induction es generalizing i with
  | nil => simp at h
  | cons a es ih =>
    cases i with
    | zero =>
      obtain rfl : a = e := by simpa using h
      simp only [List.modify_zero_cons, denoteAll_cons]
      abel
    | succ i =>
      have hi := ih (by simpa using h)
      simp only [List.modify_succ_cons, denoteAll_cons, add_assoc, hi]

/-- Removing one entry removes what it denotes. -/
theorem denoteAll_eraseIdx (layout : Layout C) (D : Multiset (Row C V)) (k : Token V)
    {es : List (Entry C V)} {i : ℕ} {e : Entry C V} (h : es[i]? = some e) :
    layout.denote D k e + layout.denoteAll D k (es.eraseIdx i) = layout.denoteAll D k es := by
  induction es generalizing i with
  | nil => simp at h
  | cons a es ih =>
    cases i with
    | zero =>
      obtain rfl : a = e := by simpa using h
      simp
    | succ i =>
      have hi := ih (by simpa using h)
      simp only [List.eraseIdx_cons_succ, denoteAll_cons, ← hi]
      abel

/-! ### Reading and storing the rows under a key -/

omit [DecidableEq C] in
theorem entriesAt_of_get? {entries : List (Entry C V)} (h : item.live.get? k = some entries) :
    item.entriesAt k = entries := by
  simp [TableWork.entriesAt, h]

omit [DecidableEq C] in
@[simp] theorem get?_setEntries (item : TableWork C V) (k j : Token V)
    (entries : List (Entry C V)) :
    (item.setEntries k entries).live.get? j = if j = k then some entries else item.live.get? j :=
  Dict.get?_set _ _ _ _

omit [DecidableEq C] in
@[simp] theorem entriesAt_setEntries (item : TableWork C V) (k : Token V)
    (entries : List (Entry C V)) : (item.setEntries k entries).entriesAt k = entries := by
  simp [TableWork.entriesAt]

omit [DecidableEq C] in
/-- A seeded key has a list of rows. -/
theorem get?_seed (item : TableWork C V) (k : Token V) :
    (item.seed k).live.get? k = some ((item.seed k).entriesAt k) := by
  unfold TableWork.seed
  cases h : item.live.get? k with
  | some entries => simp [TableWork.entriesAt, h]
  | none => simp

namespace Represents

/-- The relation reads only the rows, the truncate flag, the tombstones and the probe cache. -/
theorem congr (h : layout.Represents D item S) (hlive : item'.live = item.live)
    (htruncated : item'.truncated = item.truncated)
    (hdeleted : item'.deletedKeys = item.deletedKeys)
    (hpresent : item'.startPresent = item.startPresent) : layout.Represents D item' S := by
  obtain ⟨h₁, h₂, h₃, h₄, h₅, h₆⟩ := h
  constructor <;> simp only [hlive, htruncated, hdeleted, hpresent] <;> assumption

/-- Storing new rows under a key that is already there, or is new, follows the source when the
rows stand for the source's rows under that key and nothing else changes. -/
theorem setEntries (h : layout.Represents D item S) (hk : ∃ r : Row C V, k = layout.token r)
    {entries : List (Entry C V)} (hwf : layout.WellFormed D item.truncated k entries)
    (hrows : layout.rowsAt S' k = layout.denoteAll D k entries)
    (hother : ∀ j, j ≠ k → layout.rowsAt S' j = layout.rowsAt S j)
    (hdeleted : k ∈ item.deletedKeys → entries = []) :
    layout.Represents D (item.setEntries k entries) S' where
  unseen j hj := by
    rw [get?_setEntries] at hj
    split_ifs at hj with hjk
    rw [hother j hjk]
    exact h.unseen j hj
  seen j es hj := by
    rw [get?_setEntries] at hj
    split_ifs at hj with hjk
    · subst hjk
      obtain rfl : entries = es := by simpa using hj
      exact hrows
    · rw [hother j hjk]
      exact h.seen j es hj
  wellFormed j es hj := by
    rw [get?_setEntries] at hj
    split_ifs at hj with hjk
    · subst hjk
      obtain rfl : entries = es := by simpa using hj
      exact hwf
    · exact h.wellFormed j es hj
  isToken j es hj := by
    rw [get?_setEntries] at hj
    split_ifs at hj with hjk
    · exact hjk ▸ hk
    · exact h.isToken j es hj
  deleted j hj := by
    rw [get?_setEntries]
    split_ifs with hjk
    · rw [hdeleted (hjk ▸ hj)]
    · exact h.deleted j hj
  present := h.present

theorem track (h : layout.Represents D item S) (k : Token V) :
    layout.Represents D (item.track k) S :=
  h.congr rfl rfl rfl rfl

/-- First sight of a key changes nothing that is represented. -/
theorem seed (h : layout.Represents D item S) (hk : ∃ r : Row C V, k = layout.token r) :
    layout.Represents D (item.seed k) S := by
  unfold TableWork.seed
  cases hget : item.live.get? k with
  | some entries => exact h
  | none =>
    have hunseen := h.unseen k hget
    refine h.setEntries hk ?_ ?_ (fun _ _ => rfl) fun hdel => ?_
    · cases htr : item.truncated <;> constructor <;> simp
    · rw [hunseen]
      split_ifs with htr
      · simp
      · simp [denote]
    · have := h.deleted k hdel
      rw [hget] at this
      cases this

/-- A truncate empties the source table and the fold alike. -/
theorem truncate : layout.Represents D item.truncate 0 where
  unseen k _ := by simp [TableWork.truncate, rowsAt]
  seen k entries h := by simp [TableWork.truncate] at h
  wellFormed k entries h := by simp [TableWork.truncate] at h
  isToken k entries h := by simp [TableWork.truncate] at h
  deleted k h := by simp [TableWork.truncate] at h
  present k b h := by simp [TableWork.truncate] at h

variable {probe : Probe C V}

/-- What resolving `START` leaves: the same fold up to the probe cache, or the fold without a
`START` that stands for no row. -/
theorem resolveStart_cases (h : layout.Represents D item S)
    (hprobe : probe.startExists item k = true ↔ layout.rowsAt D k ≠ 0) :
    (∀ es, item.entriesAt k ≠ .start :: es) ∧ item.resolveStart probe k = item ∨
    ∃ es, item.live.get? k = some (.start :: es) ∧ item.truncated = false ∧
      (layout.rowsAt D k ≠ 0 ∧ item.resolveStart probe k =
          item.cacheStart k true ∨
        layout.rowsAt D k = 0 ∧ item.resolveStart probe k =
          (item.cacheStart k false).setEntries k es) := by
  cases hes : item.entriesAt k with
  | nil => exact Or.inl ⟨by simp, by simp [TableWork.resolveStart, hes]⟩
  | cons e es =>
    cases e with
    | patch p => exact Or.inl ⟨by simp, by simp [TableWork.resolveStart, hes]⟩
    | move s t p => exact Or.inl ⟨by simp, by simp [TableWork.resolveStart, hes]⟩
    | start =>
      have hget : item.live.get? k = some (.start :: es) := by
        unfold TableWork.entriesAt at hes
        cases hl : item.live.get? k with
        | none => simp [hl] at hes
        | some es' => simpa [hl] using hes
      have htr : item.truncated = false := by
        by_contra htr
        exact (h.wellFormed k _ hget).start_truncated (by simpa using htr) List.mem_cons_self
      refine Or.inr ⟨es, hget, htr, ?_⟩
      have hpresent : (item.startPresent.get? k).getD (probe.startExists item k) = true ↔
          layout.rowsAt D k ≠ 0 := by
        cases hc : item.startPresent.get? k with
        | none => simpa using hprobe
        | some b => simpa using h.present k b hc
      unfold TableWork.resolveStart
      simp only [hes, htr, Bool.false_eq_true, if_false]
      by_cases hD : layout.rowsAt D k = 0
      · have hb : (item.startPresent.get? k).getD (probe.startExists item k) = false := by
          simpa [hD] using hpresent
        exact Or.inr ⟨hD, by simp [hb]⟩
      · have hb : (item.startPresent.get? k).getD (probe.startExists item k) = true :=
          hpresent.2 hD
        exact Or.inl ⟨hD, by simp [hb]⟩

private theorem cachePresent (h : layout.Represents D item S) {b : Bool}
    (hb : b = true ↔ layout.rowsAt D k ≠ 0) :
    layout.Represents D (item.cacheStart k b) S := by
  refine ⟨h.unseen, h.seen, h.wellFormed, h.isToken, h.deleted, fun j b' hj => ?_⟩
  simp only [TableWork.cacheStart, Dict.get?_set] at hj
  split_ifs at hj with hjk
  · obtain rfl : b = b' := by simpa using hj
    rw [hb, hjk]
  · exact h.present j b' hj

/-- A probe changes nothing that is represented. -/
theorem resolveStart (h : layout.Represents D item S)
    (hprobe : probe.startExists item k = true ↔ layout.rowsAt D k ≠ 0) :
    layout.Represents D (item.resolveStart probe k) S := by
  obtain ⟨-, heq⟩ | ⟨es, hget, htr, ⟨hD, heq⟩ | ⟨hD, heq⟩⟩ := h.resolveStart_cases hprobe
  · rwa [heq]
  · rw [heq]
    exact h.cachePresent (by simpa using hD)
  · rw [heq]
    have hc := h.cachePresent (k := k) (b := false) (by simpa using hD)
    have hwf := h.wellFormed k _ hget
    refine hc.setEntries (h.isToken k _ hget) ?_ ?_ (fun _ _ => rfl) fun hdel => ?_
    · refine ⟨fun hm => hwf.start_head (List.mem_of_mem_tail hm), fun _ => hwf.start_head,
        fun s t p hm => hwf.no_move s t p (List.mem_cons_of_mem _ hm), fun p hm hp => ?_⟩
      exact hwf.sparse p (List.mem_cons_of_mem _ hm) hp
    · rw [h.seen k _ hget, denoteAll_cons, denote, hD, zero_add]
    · have := h.deleted k hdel
      rw [hget] at this
      cases this

/-- After a probe, a `START` still at the head stands for a row. -/
theorem rowsAt_ne_of_start (h : layout.Represents D item S)
    (hprobe : probe.startExists item k = true ↔ layout.rowsAt D k ≠ 0) {es : List (Entry C V)}
    (hes : (item.resolveStart probe k).entriesAt k = .start :: es) : layout.rowsAt D k ≠ 0 := by
  obtain ⟨hne, heq⟩ | ⟨es', hget, htr, ⟨hD, -⟩ | ⟨hD, heq⟩⟩ := h.resolveStart_cases hprobe
  · rw [heq] at hes
    exact absurd hes (hne es)
  · exact hD
  · rw [heq, entriesAt_setEntries] at hes
    exact absurd (hes ▸ List.mem_cons_self) (h.wellFormed k _ hget).start_head

omit [DecidableEq C] in
theorem isSome_resolveStart (hseen : (item.live.get? k).isSome) :
    ((item.resolveStart probe k).live.get? k).isSome := by
  simp only [TableWork.resolveStart]
  split
  · split_ifs
    · simp
    · exact hseen
    · simp
  · exact hseen

/-- Seeding and settling a key changes nothing that is represented. -/
theorem settleStart (h : layout.Represents D item S) (hk : ∃ r : Row C V, k = layout.token r)
    (hprobe : probe.startExists (item.seed k) k = true ↔ layout.rowsAt D k ≠ 0) :
    layout.Represents D (item.settleStart probe k) S := by
  simp only [TableWork.settleStart]
  split_ifs with hstart
  · exact (h.seed hk).resolveStart hprobe
  · exact h.seed hk

theorem isSome_settleStart (item : TableWork C V) (k : Token V) :
    ((item.settleStart probe k).live.get? k).isSome := by
  have hseed : ((item.seed k).live.get? k).isSome := by simp [get?_seed]
  simp only [TableWork.settleStart]
  split_ifs with hstart
  · exact isSome_resolveStart hseed
  · exact hseed

/-- A complete row appended to the rows of its key. -/
private theorem append (h : layout.Represents D item S) {r : Row C V} {p : RowPatch C V}
    {es : List (Entry C V)} (hget : item.live.get? (layout.token r) = some es)
    (hdeleted : layout.token r ∉ item.deletedKeys) (hp : p.complete = true)
    (hr : p.apply (fun _ => none) = r) :
    layout.Represents D (item.setEntries (layout.token r) (es ++ [.patch p])) (r ::ₘ S) := by
  have hwf := h.wellFormed _ _ hget
  refine h.setEntries ⟨r, rfl⟩ ?_ ?_ (fun j hj => rowsAt_cons_of_ne (Ne.symm hj))
    fun hdel => absurd hdel hdeleted
  · refine ⟨fun hm => hwf.start_head ?_, fun htr hm => hwf.start_truncated htr (by simpa using hm),
      fun s t q hm => hwf.no_move s t q (by simpa using hm), fun q hm hq => ?_⟩
    · cases es with
      | nil => simp at hm
      | cons e es => simpa using hm
    · rcases List.mem_append.1 hm with hm | hm
      · exact hwf.sparse q hm hq
      · obtain rfl : q = p := by simpa using hm
        rw [hp] at hq
        cases hq
  · rw [rowsAt_cons_self, h.seen _ _ hget, denoteAll_append, ← Multiset.singleton_add, add_comm]
    simp [denote, hp, hr]

theorem clearTombstone (h : layout.Represents D item S) (k : Token V) :
    layout.Represents D (item.clearTombstone k) S :=
  ⟨h.unseen, h.seen, h.wellFormed, h.isToken,
    fun j hj => h.deleted j (Finset.mem_of_mem_erase hj), h.present⟩

omit [DecidableEq C] in
theorem deletedKeys_seed (item : TableWork C V) (k : Token V) :
    (item.seed k).deletedKeys = item.deletedKeys := by
  unfold TableWork.seed
  split <;> rfl

/-- An insert appends a complete row under its key. -/
theorem place (h : layout.Represents D item S) {r : Row C V} {p : RowPatch C V}
    (hp : p.complete = true) (hr : p.apply (fun _ => none) = r) :
    layout.Represents D (item.place (layout.token r) p none) (r ::ₘ S) := by
  have hseed := (h.clearTombstone (layout.token r)).seed ⟨r, rfl⟩
  refine (hseed.append (get?_seed _ _) ?_ hp hr).track _
  rw [deletedKeys_seed]
  exact Finset.notMem_erase _ _

end Represents

/-! ### Replacing and removing the row an entry stands for -/

/-- An update of the row an entry stands for. -/
theorem denote_updated {e : Entry C V} {q : RowPatch C V} {old new : Row C V}
    (he : layout.denote D k e = {old}) (hq : q.complete = false) (happly : q.apply old = new) :
    layout.denote D k (e.updated q) = {new} := by
  cases e with
  | start =>
    have hrow : layout.rowsAt D k = {old} := he
    simp [Entry.updated, denote, hq, hrow, happly]
  | patch p =>
    simp only [Entry.updated, denote, RowPatch.complete_compose, hq, Bool.or_false] at he ⊢
    split_ifs at he ⊢ with hp
    · rw [RowPatch.apply_compose, Multiset.singleton_inj.1 he, happly]
    · have hcomp : (p.compose q).apply = q.apply ∘ p.apply :=
        funext fun r => RowPatch.apply_compose p q r
      rw [hcomp, ← Multiset.map_map, he, Multiset.map_singleton, happly]
  | move s t p => simp [denote] at he

omit [DecidableEq C] [DecidableEq V] in
private theorem mem_modify {es : List (Entry C V)} {i : ℕ} {f : Entry C V → Entry C V}
    {x : Entry C V} (h : x ∈ es.modify i f) : x ∈ es ∨ ∃ e, es[i]? = some e ∧ x = f e := by
  induction es generalizing i with
  | nil => simp at h
  | cons a es ih =>
    cases i with
    | zero =>
      rw [List.modify_zero_cons, List.mem_cons] at h
      rcases h with rfl | h
      · exact Or.inr ⟨a, rfl, rfl⟩
      · exact Or.inl (List.mem_cons_of_mem _ h)
    | succ i =>
      rw [List.modify_succ_cons, List.mem_cons] at h
      rcases h with rfl | h
      · exact Or.inl List.mem_cons_self
      · rcases ih h with h | ⟨e, he, hx⟩
        · exact Or.inl (List.mem_cons_of_mem _ h)
        · exact Or.inr ⟨e, he, hx⟩

omit [DecidableEq V] in
private theorem updated_ne_start (q : RowPatch C V) (e : Entry C V) : e.updated q ≠ .start := by
  cases e <;> simp [Entry.updated]

theorem WellFormed.modify {truncated : Bool} {es : List (Entry C V)} {i : ℕ} {e : Entry C V}
    {q : RowPatch C V} (h : layout.WellFormed D truncated k es) (hi : es[i]? = some e)
    (he : layout.denote D k e ≠ 0) :
    layout.WellFormed D truncated k (es.modify i (Entry.updated q)) := by
  have hmem : e ∈ es := List.mem_of_getElem? hi
  refine ⟨fun hm => ?_, fun htr hm => ?_, fun s t p hm => ?_, fun p hm hp => ?_⟩
  · cases es with
    | nil => simp at hi
    | cons a es =>
      cases i with
      | zero => exact h.start_head (by simpa using hm)
      | succ i =>
        rcases mem_modify (i := i) (by simpa using hm) with hm | ⟨e', -, hx⟩
        · exact h.start_head hm
        · exact updated_ne_start q e' hx.symm
  · rcases mem_modify hm with hm | ⟨e', -, hx⟩
    · exact h.start_truncated htr hm
    · exact updated_ne_start q e' hx.symm
  · rcases mem_modify hm with hm | ⟨e', he', hx⟩
    · exact h.no_move s t p hm
    · obtain rfl : e = e' := by simpa [hi] using he'
      cases e with
      | start => simp [Entry.updated] at hx
      | patch p' => simp [Entry.updated] at hx
      | move s' t' p' => exact h.no_move s' t' p' hmem
  · rcases mem_modify hm with hm | ⟨e', he', hx⟩
    · exact h.sparse p hm hp
    · obtain rfl : e = e' := by simpa [hi] using he'
      cases e with
      | start =>
        refine ⟨?_, he⟩
        by_contra htr
        exact h.start_truncated (by simpa using htr) hmem
      | patch p' =>
        obtain rfl : p = p'.compose q := by simpa [Entry.updated] using hx
        refine h.sparse p' hmem ?_
        rw [RowPatch.complete_compose, Bool.or_eq_false_iff] at hp
        exact hp.1
      | move s' t' p' => simp [Entry.updated] at hx

omit [DecidableEq C] in
theorem WellFormed.eraseIdx {truncated : Bool} {es : List (Entry C V)}
    (h : layout.WellFormed D truncated k es) (i : ℕ) :
    layout.WellFormed D truncated k (es.eraseIdx i) := by
  have hsub : ∀ {x : Entry C V}, x ∈ es.eraseIdx i → x ∈ es :=
    fun hm => List.mem_of_mem_eraseIdx hm
  refine ⟨fun hm => ?_, fun htr hm => h.start_truncated htr (hsub hm),
    fun s t p hm => h.no_move s t p (hsub hm), fun p hm hp => h.sparse p (hsub hm) hp⟩
  cases es with
  | nil => simp at hm
  | cons a es =>
    cases i with
    | zero => exact h.start_head (List.mem_of_mem_tail (by simpa using hm))
    | succ i => exact h.start_head (List.mem_of_mem_eraseIdx (by simpa using hm))

namespace Represents

/-- An update replaces the entry that stands for the old row. -/
theorem replace {old new : Row C V} {T : Multiset (Row C V)} {es : List (Entry C V)} {i : ℕ}
    {e : Entry C V} {q : RowPatch C V}
    (h : layout.Represents D item (old ::ₘ T))
    (hget : item.live.get? (layout.token old) = some es) (hi : es[i]? = some e)
    (he : layout.denote D (layout.token old) e = {old}) (hq : q.complete = false)
    (happly : q.apply old = new) (hkey : layout.token new = layout.token old) :
    layout.Represents D ((item.setEntries (layout.token old)
      (es.modify i (Entry.updated q))).track (layout.token old)) (new ::ₘ T) := by
  refine (h.setEntries ⟨old, rfl⟩ ?_ ?_ ?_ ?_).track _
  · exact (h.wellFormed _ _ hget).modify hi (by simp [he])
  · have hmod := denoteAll_modify layout D (layout.token old) hi (Entry.updated q)
    rw [he, denote_updated he hq happly, ← h.seen _ _ hget, rowsAt_cons_self] at hmod
    rw [← hkey, rowsAt_cons_self, hkey]
    refine (add_right_cancel (b := {old}) ?_).symm
    rw [hmod]
    simp only [← Multiset.singleton_add]
    abel
  · intro j hj
    rw [rowsAt_cons_of_ne (by rw [hkey]; exact Ne.symm hj), rowsAt_cons_of_ne (Ne.symm hj)]
  · intro hdel
    have := h.deleted _ hdel
    rw [hget] at this
    obtain rfl : es = [] := by simpa using this
    simp at hi

/-- A delete removes the entry that stands for the old row. -/
theorem take {old : Row C V} {T : Multiset (Row C V)} {es : List (Entry C V)} {i : ℕ}
    {e : Entry C V} (h : layout.Represents D item (old ::ₘ T))
    (hget : item.live.get? (layout.token old) = some es) (hi : es[i]? = some e)
    (he : layout.denote D (layout.token old) e = {old}) :
    layout.Represents D (item.setEntries (layout.token old) (es.eraseIdx i)) T := by
  refine h.setEntries ⟨old, rfl⟩ ((h.wellFormed _ _ hget).eraseIdx i) ?_ ?_ ?_
  · have herase := denoteAll_eraseIdx layout D (layout.token old) hi
    rw [he, ← h.seen _ _ hget, rowsAt_cons_self, ← Multiset.singleton_add] at herase
    exact (add_left_cancel herase).symm
  · exact fun j hj => (rowsAt_cons_of_ne (Ne.symm hj)).symm
  · intro hdel
    have := h.deleted _ hdel
    rw [hget] at this
    obtain rfl : es = [] := by simpa using this
    simp at hi

/-- A key whose last row was taken is a tombstone. -/
theorem bury (h : layout.Represents D item S) (hget : item.live.get? k = some []) :
    layout.Represents D (item.addTombstone k) S := by
  refine ⟨h.unseen, h.seen, h.wellFormed, h.isToken, fun j hj => ?_, h.present⟩
  rcases Finset.mem_insert.1 hj with rfl | hj
  · exact hget
  · exact h.deleted j hj

end Represents

end Layout

end CdcFlight
