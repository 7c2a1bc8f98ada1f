import CdcFlight.Destination.KeyedGroup
import CdcFlight.Fold.Asked
import CdcFlight.Fold.TruncateMarks

/-!
# The texts of a key

The fold goes by the texts in which keys arrive, the destination compares keys in a form of its own.
A group whose updates and deletes name each key in the text under which the destination holds it is
folded and written as if the destination compared texts. Without that the probe of a key finds a
row that arrived under another text, and the fold takes it for one of its own.

## Main definitions

* `CdcFlight.Table.OneText`: the rows whose key has the form of this one have it in this text.
* `CdcFlight.Layout.OneText`: so it is for every key that an update or a delete names.

## Main results

* `CdcFlight.Layout.applyTable_byText`, `CdcFlight.Layout.applyTable_of_byText`: such a group is
  applied as it is to the table that compares texts.
-/

namespace CdcFlight

open Lib

variable {C V : Type} [DecidableEq C] [DecidableEq V]

/-- The rows an operation names that it finds: those of an update and of a delete. -/
def SourceEvent.named : SourceEvent C V → List (Row C V)
  | .update old new => [old, new]
  | .delete old => [old]
  | .insert _ => []
  | .truncate => []

namespace Table

variable {t : Table C V} {columns : List C}

/-- The rows whose key has the form of this one have it in this text. -/
def OneText (t : Table C V) (columns : List C) (key : List (Option V)) : Prop :=
  ∀ r ∈ t.rows, t.keyAt columns r = t.canonicalKey key → keyOf columns r = key

omit [DecidableEq C] [DecidableEq V] in
theorem OneText.keyAt_iff {key : List (Option V)} (h : t.OneText columns key) {r : DestRow C V}
    (hr : r ∈ t.rows) : t.keyAt columns r = t.canonicalKey key ↔ keyOf columns r = key :=
  ⟨h r hr, fun heq => congrArg t.canonicalKey heq⟩

/-- Comparing texts does not change the answers about keys of one text. -/
theorem agreeOn_byText (t : Table C V) (columns : List C) (applied : String → Bool) :
    (t.probe false applied).AgreeOn (t.byText.probe false applied) columns
      {key | t.OneText columns key} := by
  have hkey {k : Token V} (hk : t.OneText columns (rawKey k)) {r : DestRow C V}
      (hr : r ∈ t.rows) : (t.keyAt columns r = t.canonicalKey (rawKey k)) =
        (keyOf columns r = rawKey k) := propext (hk.keyAt_iff hr)
  constructor
  · rintro item k rfl hk
    refine congrArg (t.probeable false item && ·) ?_
    rw [Bool.eq_iff_iff, List.any_eq_true, List.any_eq_true]
    refine exists_congr fun r => and_congr_right fun hr => ?_
    rw [decide_eq_true_iff, decide_eq_true_iff, hkey hk hr]
    rfl
  · rintro item k image rfl hk
    simp only [probe]
    refine if_congr Iff.rfl (congrArg some ?_) rfl
    rw [Bool.eq_iff_iff, List.any_eq_true, List.any_eq_true]
    refine exists_congr fun r => and_congr_right fun hr => ?_
    rw [Bool.and_eq_true, Bool.and_eq_true, decide_eq_true_iff, decide_eq_true_iff, hkey hk hr]
    rfl

omit [DecidableEq C] in
theorem deleteKeys_inTexts {keys : List (List (Option V))}
    (h : ∀ r ∈ t.rows, ∀ k ∈ keys, t.keyAt columns r = t.canonicalKey k →
      keyOf columns r ∈ keys) :
    t.byText.deleteKeys columns keys = (t.deleteKeys columns keys).byText := by
  have hrows : t.rows.filter (fun r => keyOf columns r ∉ keys.map id) =
      t.rows.filter fun r => t.keyAt columns r ∉ keys.map t.canonicalKey := by
    refine List.filter_congr fun r hr => ?_
    rw [List.map_id, decide_eq_decide, not_iff_not, List.mem_map]
    constructor
    · exact fun hk => ⟨_, hk, rfl⟩
    · rintro ⟨k, hk, heq⟩
      exact h r hr k hk heq.symm
  exact congrArg (fun rows => { t.byText with rows := rows }) hrows

theorem updateRows_inTexts {updates : List (SparseUpdate C V)}
    (hkeep : KeepsKey (keyOf columns) Assignment.assignTo updates)
    (h : ∀ u ∈ updates, t.OneText columns u.1) :
    t.byText.updateRows columns updates =
      ((t.updateRows columns updates).1, (t.updateRows columns updates).2.byText) := by
  have hmem {u : SparseUpdate C V} (hu : u ∈ (t.updateStatements updates).flatten) :
      u ∈ updates := (t.flatten_updateStatements updates).mem_iff.1 hu
  have hpasses := foldl_pass_inForm (keyOf columns) Assignment.assignTo t.canonicalKey
    (t.updateStatements updates) (fun u hu => hkeep u (hmem hu)) (c := (t.rows, 0))
    fun r hr u hu => h u (hmem hu) r hr
  have htexts : t.byText.updateRows columns updates =
      (((t.updateStatements updates).foldl (pass (keyOf columns) Assignment.assignTo)
        (t.rows, 0)).2, { t.byText with rows := ((t.updateStatements updates).foldl
          (pass (keyOf columns) Assignment.assignTo) (t.rows, 0)).1 }) := by
    unfold updateRows
    simp only [map_address_byText (t := t.byText) rfl, List.map_id']
    rfl
  rw [htexts, ← hpasses]
  rfl

omit [DecidableEq C] [DecidableEq V] in
/-- Identities of different forms are different. -/
theorem IdentityUnique.byText (h : t.IdentityUnique) : t.byText.IdentityUnique := by
  have hmap : t.rows.map t.identityOf =
      (t.rows.map t.byText.identityOf).map (Sum.map t.canonicalKey id) := by
    rw [List.map_map]
    refine List.map_congr_left fun r _ => ?_
    simp only [identityOf, Function.comp_apply]
    by_cases hk : t.keyColumns = []
    · rw [if_pos hk, if_pos (show t.byText.keyColumns = [] from hk), Sum.map_inr, id]
    · rw [if_neg hk, if_neg (show t.byText.keyColumns ≠ [] from hk), Sum.map_inl]
      rfl
  rw [IdentityUnique, hmap] at h
  exact h.of_map _

omit [DecidableEq C] [DecidableEq V] in
theorem OneText.of_subset {t' : Table C V} {key : List (Option V)} (h : t.OneText columns key)
    (hcanonical : t'.canonicalKey = t.canonicalKey) (hsub : ∀ r ∈ t'.rows, r ∈ t.rows) :
    t'.OneText columns key := by
  intro r hr heq
  rw [keyAt, hcanonical] at heq
  exact h r (hsub r hr) heq

end Table

/-- What a write leaves, for the table that compares texts. -/
def Written.byText (w : Written C V) : Written C V := { w with table := w.table.byText }

namespace Layout

variable {layout : Layout C} {t : Table C V} {B D S : Multiset (Row C V)} {item : TableWork C V}
  {os : List (Token V × Outcome C V)} {canonical : List (Option V) → List (Option V)}
  {fresh : Bool}

omit [DecidableEq C] [DecidableEq V] in
/-- Rows whose keys have one form wear one key. -/
theorem KeysApart.key_eq (h : layout.KeysApart canonical S) {r q : Row C V} (hr : r ∈ S)
    (hq : q ∈ S) (heq : canonical (layout.key r) = canonical (layout.key q)) :
    layout.key r = layout.key q := by
  rw [Multiset.inj_on_of_nodup_map h r hr q hq heq]

omit [DecidableEq C] [DecidableEq V] in
/-- The keys of some of the rows. -/
theorem KeysApart.of_keys (h : layout.KeysApart canonical S) (hB : layout.KeysDistinct B)
    (hsub : ∀ r ∈ B, ∃ s ∈ S, layout.key s = layout.key r) : layout.KeysApart canonical B := by
  have hmap : B.map (fun r => canonical (layout.key r)) = (B.map layout.key).map canonical :=
    (Multiset.map_map _ _ _).symm
  rw [KeysApart, hmap]
  refine Multiset.Nodup.map_on (fun key hkey key' hkey' heq => ?_) hB
  obtain ⟨r, hr, rfl⟩ := Multiset.mem_map.1 hkey
  obtain ⟨q, hq, rfl⟩ := Multiset.mem_map.1 hkey'
  obtain ⟨s, hs, hsr⟩ := hsub r hr
  obtain ⟨s', hs', hsq⟩ := hsub q hq
  rw [← hsr, ← hsq] at heq ⊢
  exact h.key_eq hs hs' heq

/-! ### The writer -/

/-- A row that the plan does not delete leaves a row under its key. -/
theorem Outcomes.survives (h : layout.Outcomes B S os) {r : Row C V} (hr : r ∈ B) :
    layout.token r ∈ (plansOf os).deleteKeys ∨ ∃ q ∈ S, layout.token q = layout.token r := by
  have hheld : r ∈ layout.rowsAt B (layout.token r) := mem_rowsAt.2 ⟨hr, rfl⟩
  have hmem {q : Row C V} (hq : q ∈ layout.rowsAt S (layout.token r)) :
      ∃ q ∈ S, layout.token q = layout.token r := ⟨q, mem_rowsAt.1 hq⟩
  by_cases hseen : layout.token r ∈ os.map Prod.fst
  · obtain ⟨⟨_, o⟩, ho, rfl⟩ := List.mem_map.1 hseen
    have hrows := h.seen _ o ho
    cases o with
    | keep => exact Or.inr (hmem (by rw [hrows]; exact hheld))
    | delete => exact Or.inl (mem_deleteKeys_plansOf.2 (Or.inl ho))
    | replace p => exact Or.inl (mem_deleteKeys_plansOf.2 (Or.inr ⟨p, ho⟩))
    | amend p => exact Or.inr (hmem (by rw [hrows]; exact Multiset.mem_map_of_mem p.apply hheld))
  · exact Or.inr (hmem (h.unseen _ hseen ▸ hheld))

/-- **The keys a plan deletes** reach the same rows in every form: an emptied key was asked about,
and a replaced one is the only key of its form that is left. -/
theorem Outcomes.deletes_inTexts (h : layout.Outcomes (contents t.rows) S os)
    (hS : layout.KeysApart t.canonicalKey S)
    (hemptied : ∀ k, (k, .delete) ∈ os → t.OneText layout.keyColumns (rawKey k)) :
    ∀ r ∈ t.rows, ∀ key ∈ (plansOf os).deleteKeys.map rawKey,
      t.keyAt layout.keyColumns r = t.canonicalKey key →
        keyOf layout.keyColumns r ∈ (plansOf os).deleteKeys.map rawKey := by
  intro r hr key hkey heq
  obtain ⟨k, hk, rfl⟩ := List.mem_map.1 hkey
  rcases mem_deleteKeys_plansOf.1 hk with hdelete | ⟨p, hreplace⟩
  · rw [hemptied k hdelete r hr heq]
    exact hkey
  · rcases h.survives (mem_contents.2 ⟨r, hr, rfl⟩) with hdeleted | ⟨q, hq, htoken⟩
    · exact (h.mem_deleteKeys r).2 hdeleted
    · have hplaced : p.apply (fun _ => none) ∈ S := by
        have hmem : p.apply (fun _ => none) ∈ layout.rowsAt S k := by
          rw [h.seen k _ hreplace]
          exact Multiset.mem_singleton_self _
        exact (mem_rowsAt.1 hmem).1
      have hkey' : layout.key q = layout.key r.values := layout.token_eq_iff.1 htoken
      have hraw : rawKey k = layout.key (p.apply fun _ => none) := by
        rw [← h.key_replace hreplace, rawKey_token]
      have hsame := hS.key_eq hq hplaced (by rw [hkey', ← hraw]; exact heq)
      change layout.key r.values ∈ _
      rw [← hkey', hsame, ← hraw]
      exact hkey

/-- **The keys of sparse updates** have one text: the table holds their rows. -/
theorem Outcomes.updates_oneText (h : layout.Outcomes B S os)
    (hB : ∀ r ∈ B, r ∈ contents t.rows)
    (hD : layout.KeysApart t.canonicalKey (contents t.rows)) (columns : List C) :
    ∀ u ∈ (plansOf os).updates columns, t.OneText layout.keyColumns u.1 := by
  intro u hu r hr heq
  rw [updates_plansOf] at hu
  obtain ⟨⟨k, p⟩, hp, rfl⟩ := List.mem_map.1 hu
  obtain ⟨q, hq⟩ := Multiset.exists_mem_of_ne_zero (h.amend k p (mem_partialUpdates_plansOf.1 hp))
  obtain ⟨hqB, rfl⟩ := mem_rowsAt.1 hq
  rw [rawKey_token] at heq ⊢
  exact hD.key_eq (mem_contents.2 ⟨r, hr, rfl⟩) (hB q hqB) heq

/-- What the writer needs to know of a fold that stands for the rows `S`: the keys at the
destination and in `S` have different forms, and the fold has asked about keys of one text only. -/
structure WritesInTexts (layout : Layout C) (t : Table C V) (S : Multiset (Row C V))
    (item : TableWork C V) : Prop where
  simulates : layout.Simulates (contents t.rows) item S
  held : layout.KeysApart t.canonicalKey (contents t.rows)
  left : layout.KeysApart t.canonicalKey S
  tidy : Tidy layout.keyColumns {key | t.OneText layout.keyColumns key} item

theorem WritesInTexts.clearKeyed_byText (h : layout.WritesInTexts t S item)
    (hos : layout.Outcomes (if item.truncated then 0 else contents t.rows) S os)
    (hkeys : item.keyColumns = layout.keyColumns ∨ os = [])
    (hdelete : ∀ k, (k, .delete) ∈ os → item.live.get? k = some []) (fresh : Bool) :
    clearKeyed t.byText item fresh (plansOf os) =
      ((clearKeyed t item fresh (plansOf os)).1,
        (clearKeyed t item fresh (plansOf os)).2.byText) := by
  have hdeleted (htr : ¬ item.truncated = true) :
      t.byText.deleteKeys item.keyColumns ((plansOf os).deleteKeys.map rawKey) =
        (t.deleteKeys item.keyColumns ((plansOf os).deleteKeys.map rawKey)).byText := by
    refine Table.deleteKeys_inTexts ?_
    rcases hkeys with hkeys | rfl
    · rw [hkeys]
      rw [if_neg htr] at hos
      exact hos.deletes_inTexts h.left fun k hk =>
        (h.tidy.emptied k (hdelete k hk)).resolve_left htr
    · exact fun _ _ _ hkey => absurd hkey List.not_mem_nil
  unfold clearKeyed
  by_cases htr : item.truncated = true
  · rw [if_pos htr, if_pos htr]
    cases fresh <;> rfl
  · rw [if_neg htr, if_neg htr, hdeleted htr]
    split_ifs <;> rfl

theorem WritesInTexts.updateKeyed_byText (h : layout.WritesInTexts t S item)
    (hos : layout.Outcomes (if item.truncated then 0 else contents t.rows) S os)
    (hkeys : item.keyColumns = layout.keyColumns ∨ os = []) {t₁ : Table C V}
    (hcanonical : t₁.canonicalKey = t.canonicalKey) (hsub : ∀ r ∈ t₁.rows, r ∈ t.rows) :
    updateKeyed t₁.byText item fresh (plansOf os) =
      (updateKeyed t₁ item fresh (plansOf os)).map Table.byText := by
  have hbase : ∀ r ∈ (if item.truncated then 0 else contents t.rows), r ∈ contents t.rows := by
    intro r hr
    split_ifs at hr
    · exact absurd hr (Multiset.notMem_zero r)
    · exact hr
  have hupdated : t₁.byText.updateRows item.keyColumns ((plansOf os).updates item.keyColumns) =
      ((t₁.updateRows item.keyColumns ((plansOf os).updates item.keyColumns)).1,
        (t₁.updateRows item.keyColumns ((plansOf os).updates item.keyColumns)).2.byText) := by
    rcases hkeys with hkeys | rfl
    · rw [hkeys]
      exact Table.updateRows_inTexts hos.keepsKey fun u hu =>
        (hos.updates_oneText hbase h.held _ u hu).of_subset hcanonical hsub
    · exact Table.updateRows_inTexts (fun _ hu => absurd hu List.not_mem_nil) fun _ hu =>
        absurd hu List.not_mem_nil
  unfold updateKeyed
  dsimp only
  by_cases hnil : (plansOf os).updates item.keyColumns = []
  · rw [if_pos hnil, if_pos hnil]
    rfl
  · rw [if_neg hnil, if_neg hnil, hupdated]
    cases fresh with
    | true => rfl
    | false =>
      simp only [Bool.false_eq_true, if_false, false_or]
      split_ifs <;> rfl

theorem insertRows_byText {t' : Table C V} {rows : List (NewRow C V)}
    (h : t.insertRows rows = .ok t') : t.byText.insertRows rows = .ok t'.byText := by
  unfold Table.insertRows at h ⊢
  dsimp only at h ⊢
  split_ifs at h with hrefused
  obtain rfl := Except.ok.inj h
  refine if_neg fun hconstrained => hrefused ⟨hconstrained.1, fun hunique => ?_⟩
  exact hconstrained.2 hunique.byText

omit [DecidableEq C] in
theorem assertIdentityIsUnique_byText (h : t.assertIdentityIsUnique = .ok ()) :
    t.byText.assertIdentityIsUnique = .ok () := by
  unfold Table.assertIdentityIsUnique at h ⊢
  split_ifs at h with hunique
  exact if_pos (hunique.imp_right Table.IdentityUnique.byText)

omit [DecidableEq C] in
/-- The deletes of a keyed write change nothing but the rows. -/
theorem clearKeyed_frame (t : Table C V) (item : TableWork C V) (fresh : Bool) (p : Plan C V) :
    (clearKeyed t item fresh p).2 = { t with rows := (clearKeyed t item fresh p).2.rows } := by
  unfold clearKeyed
  split_ifs <;> rfl

/-- Nor do the sparse updates. -/
theorem updateKeyed_frame {t' : Table C V} {p : Plan C V}
    (h : updateKeyed t item fresh p = .ok t') : t' = { t with rows := t'.rows } := by
  unfold updateKeyed at h
  dsimp only at h
  split_ifs at h <;> obtain rfl := Except.ok.inj h <;> rfl

/-- The deletes and the sparse updates of a keyed write are those by the texts. -/
theorem WritesInTexts.cleared (h : layout.WritesInTexts t S item) (fresh : Bool)
    {p : Plan C V} (hp : plan item = .ok p) :
    (clearKeyed t.byText item fresh p).1 = (clearKeyed t item fresh p).1 ∧
      updateKeyed (clearKeyed t.byText item fresh p).2 item fresh p =
        (updateKeyed (clearKeyed t item fresh p).2 item fresh p).map Table.byText := by
  obtain ⟨os, hos, rfl, hnil, hdelete⟩ := plan_ok h.simulates.represents h.left.distinct
    h.simulates.configured.softDeletes hp
  have hkeys := h.simulates.keyColumns_or.imp_right hnil
  rw [h.clearKeyed_byText hos hkeys hdelete fresh]
  refine ⟨rfl, h.updateKeyed_byText hos hkeys ?_ fun r hr => ?_⟩
  · rw [clearKeyed_frame]
  · unfold clearKeyed at hr
    split_ifs at hr
    · exact hr
    · exact absurd hr List.not_mem_nil
    · exact List.mem_of_mem_filter hr
    · exact hr

/-- **A keyed write that goes through** goes through when texts are compared. -/
theorem WritesInTexts.writeKeyed_byText (h : layout.WritesInTexts t S item) {w : Written C V}
    (hw : writeKeyed t item fresh = .ok w) : writeKeyed t.byText item fresh = .ok w.byText := by
  have hsoft : item.softDeletes = ∅ := h.simulates.configured.softDeletes
  unfold writeKeyed at hw ⊢
  obtain ⟨p, hp, hw⟩ := except_bind_eq_ok.1 hw
  obtain ⟨haudit, hupdates⟩ := h.cleared fresh hp
  simp only [markKeyedSoftDeletes_of_empty hsoft, ite_self] at hw ⊢
  obtain ⟨updated, hupdated, hw⟩ := except_bind_eq_ok.1 hw
  obtain ⟨inserted, hinserted, hw⟩ := except_bind_eq_ok.1 hw
  obtain ⟨_, hunique, hw⟩ := except_bind_eq_ok.1 hw
  obtain rfl := Except.ok.inj hw
  rw [hupdated] at hupdates
  refine except_bind_eq_ok.2 ⟨p, hp, except_bind_eq_ok.2 ⟨_, hupdates, except_bind_eq_ok.2
    ⟨_, insertRows_byText hinserted, except_bind_eq_ok.2
      ⟨_, assertIdentityIsUnique_byText hunique, ?_⟩⟩⟩⟩
  rw [haudit]
  rfl

/-- **A keyed write that goes through when texts are compared** goes through. -/
theorem WritesInTexts.writeKeyed_of_byText (h : layout.WritesInTexts t S item)
    (hkeys : t.keyColumns = layout.keyColumns) (hfresh : fresh = true → t.rows = [])
    {w' : Written C V} (hw : writeKeyed t.byText item fresh = .ok w') :
    ∃ w, writeKeyed t item fresh = .ok w ∧ w' = w.byText ∧
      w.table.canonicalKey = t.canonicalKey := by
  have hsoft : item.softDeletes = ∅ := h.simulates.configured.softDeletes
  have hleft := (writeKeyed_ok (t := t.byText) rfl h.simulates h.left.distinct rfl hfresh hw).1
  unfold writeKeyed at hw ⊢
  obtain ⟨p, hp, hw⟩ := except_bind_eq_ok.1 hw
  obtain ⟨haudit, hupdates⟩ := h.cleared fresh hp
  simp only [markKeyedSoftDeletes_of_empty hsoft, ite_self] at hw ⊢
  obtain ⟨updated', hupdated', hw⟩ := except_bind_eq_ok.1 hw
  obtain ⟨inserted, hinserted, hw⟩ := except_bind_eq_ok.1 hw
  obtain ⟨_, -, hw⟩ := except_bind_eq_ok.1 hw
  obtain rfl := Except.ok.inj hw
  rw [hupdated'] at hupdates
  obtain ⟨updated, hupdated, rfl⟩ := except_map_eq_ok.1 hupdates.symm
  have hframe := (updateKeyed_frame hupdated).trans (by rw [clearKeyed_frame])
  unfold Table.insertRows at hinserted
  dsimp only at hinserted
  split_ifs at hinserted
  obtain rfl := Except.ok.inj hinserted
  have hcanonical : updated.canonicalKey = t.canonicalKey := by rw [hframe]
  have hunique : Table.IdentityUnique
      { updated with rows := updated.rows ++ p.rows.map NewRow.toRow } := by
    refine identityUnique layout ?_ ?_
    · rw [hframe]
      exact hkeys
    · change layout.KeysApart updated.canonicalKey _
      rw [hcanonical]
      exact hleft.symm ▸ h.left
  refine ⟨⟨_, _⟩, except_bind_eq_ok.2 ⟨p, hp, except_bind_eq_ok.2 ⟨updated, hupdated,
    except_bind_eq_ok.2 ⟨_, if_neg fun hrefused => hrefused.2 hunique, except_bind_eq_ok.2
      ⟨(), if_pos (Or.inr hunique), rfl⟩⟩⟩⟩, ?_, hcanonical⟩
  rw [haudit]
  rfl

omit [DecidableEq V] in
theorem prepare_byText (supportsPrimaryKey : Bool) (t : Table C V) (item : TableWork C V) :
    prepare supportsPrimaryKey t.byText item = (prepare supportsPrimaryKey t item).byText := by
  unfold prepare ensureTyped
  by_cases hnil : item.nativeColumns.keys = []
  · rw [if_pos hnil, if_pos hnil]
  · rw [if_neg hnil, if_neg hnil]
    by_cases hpresent : t.present = true
    · rw [if_pos hpresent, if_pos (show t.byText.present = true from hpresent)]
      rfl
    · rw [if_neg hpresent, if_neg (show ¬ t.byText.present = true from hpresent)]
      rfl

theorem WritesInTexts.prepare (h : layout.WritesInTexts t S item) (supportsPrimaryKey : Bool)
    (habsent : t.present = false → t.rows = []) :
    layout.WritesInTexts (prepare supportsPrimaryKey t item) S item := by
  have hrows := rows_prepare supportsPrimaryKey item habsent
  have hcanonical := canonicalKey_prepare supportsPrimaryKey t item
  have htexts (key : List (Option V)) :
      (Layout.prepare supportsPrimaryKey t item).OneText layout.keyColumns key ↔
        t.OneText layout.keyColumns key := by
    simp only [Table.OneText, Table.keyAt, hrows, hcanonical]
  refine ⟨by rw [hrows]; exact h.simulates, by rw [hrows, hcanonical]; exact h.held,
    by rw [hcanonical]; exact h.left, ?_⟩
  simp only [htexts]
  exact h.tidy

/-- **A write that goes through** goes through when texts are compared. -/
theorem WritesInTexts.write_byText (h : layout.WritesInTexts t S item) {engine : LimitOne C V}
    {supportsPrimaryKey : Bool} (habsent : t.present = false → t.rows = []) {w : Written C V}
    (hw : write engine supportsPrimaryKey false t item = .ok w) :
    write engine supportsPrimaryKey false t.byText item = .ok w.byText := by
  by_cases hempty : item.truncated ∧ item.live.items = [] ∧ !t.present
  · unfold write at hw ⊢
    rw [if_pos hempty] at hw
    obtain rfl := Except.ok.inj hw
    exact if_pos hempty
  by_cases hnative : item.nativeColumns.keys = [] ∧ !(item.truncated && t.present)
  · unfold write at hw
    rw [if_neg hempty, if_pos hnative] at hw
    cases hw
  rw [write_eq_writeKeyed h.simulates.configured hempty hnative] at hw
  rw [write_eq_writeKeyed (t := t.byText) h.simulates.configured hempty hnative, prepare_byText]
  exact (h.prepare supportsPrimaryKey habsent).writeKeyed_byText hw

/-- **A write that goes through when texts are compared** goes through. -/
theorem WritesInTexts.write_of_byText (h : layout.WritesInTexts t S item) {engine : LimitOne C V}
    {supportsPrimaryKey : Bool} (habsent : t.present = false → t.rows = [])
    (hkeys : t.present = true → t.keyColumns = layout.keyColumns) (hstarted : Started item)
    {w' : Written C V} (hw : write engine supportsPrimaryKey false t.byText item = .ok w') :
    ∃ w, write engine supportsPrimaryKey false t item = .ok w ∧ w' = w.byText ∧
      w.table.canonicalKey = t.canonicalKey := by
  by_cases hempty : item.truncated ∧ item.live.items = [] ∧ !t.present
  · unfold write at hw ⊢
    rw [if_pos hempty]
    rw [if_pos (show item.truncated ∧ item.live.items = [] ∧ !t.byText.present from hempty)] at hw
    obtain rfl := Except.ok.inj hw
    exact ⟨_, rfl, rfl, rfl⟩
  by_cases hnative : item.nativeColumns.keys = [] ∧ !(item.truncated && t.present)
  · unfold write at hw
    rw [if_neg (show ¬ (item.truncated ∧ item.live.items = [] ∧ !t.byText.present) from hempty),
      if_pos (show item.nativeColumns.keys = [] ∧ !(item.truncated && t.byText.present)
        from hnative)] at hw
    cases hw
  rw [write_eq_writeKeyed (t := t.byText) h.simulates.configured hempty hnative,
    prepare_byText] at hw
  rw [write_eq_writeKeyed h.simulates.configured hempty hnative]
  have hfresh : (!t.present) = true → (Layout.prepare supportsPrimaryKey t item).rows = [] := by
    intro hfresh
    rw [rows_prepare supportsPrimaryKey item habsent]
    exact habsent (by simpa using hfresh)
  obtain ⟨w, hwritten, htable, hcanonical⟩ :=
    (h.prepare supportsPrimaryKey habsent).writeKeyed_of_byText
      (keyColumns_prepare supportsPrimaryKey hkeys h.simulates hstarted hempty) hfresh hw
  exact ⟨w, hwritten, htable, hcanonical.trans (canonicalKey_prepare ..)⟩

/-! ### What a history asks -/

section Group

variable [ColumnValue V] [ToString C] {event : SourceEvent C V} {e : PendingRecord C V}
  {events : List (SourceEvent C V)} {history : List (List (SourceEvent C V))}
  {records : List (PendingRecord C V × String)} {group : Group C V} {applied : String → Bool}
  {commitId : ℕ}

omit [DecidableEq V] [ToString C] in
/-- The fold of a record asks about the keys of the rows its operation names. -/
theorem Renders.named_of_asks (h : layout.Renders event e) (hkind : e.kind ≠ .truncate)
    {key : List (Option V)} (hasks : e.Asks layout.keyColumns key) :
    ∃ r ∈ event.named, key = layout.key r := by
  have hshown (typed : Option (TypedImage C V)) {image : Option (Image C V)} {r : Row C V}
      (hall : ∀ c ∈ layout.keyColumns, layout.Shows image typed c (r c)) :
      layout.keyColumns.map (columnOf image) = layout.key r := by
    refine List.map_congr_left fun c hc => ?_
    rw [columnOf, (hall c hc).1]
    rfl
  have hkeyed {op : Op} {r : Row C V} (he : layout.RowEvent op r e) :
      layout.keyColumns.map (columnOf e.key) = layout.key r := by
    obtain ⟨image, himage, -, hget⟩ := he.key
    refine List.map_congr_left fun c hc => ?_
    rw [columnOf, himage, Option.getD_some, hget c hc]
    rfl
  cases h with
  | insert he _ =>
    cases hasks with
    | incremental h => exact absurd h (by simp [he.incremental])
    | update h => exact absurd h (by simp [he.op])
    | moved h _ => exact absurd h (by simp [he.op])
    | delete h => exact absurd h (by simp [he.op])
  | @update old new _ he hbefore _ =>
    cases hasks with
    | incremental h => exact absurd h (by simp [he.incremental])
    | update _ => exact ⟨new, by simp [SourceEvent.named], hkeyed he⟩
    | moved _ hcontains =>
      refine ⟨old, by simp [SourceEvent.named], hshown e.typedBefore fun c hc => ?_⟩
      refine (hbefore.2 c hc).resolve_right fun hnone => ?_
      have hc := hcontains c hc
      rw [Dict.contains, hnone] at hc
      cases hc
    | delete h => exact absurd h (by simp [he.op])
  | @delete old _ he _ hkey =>
    cases hasks with
    | incremental h => exact absurd h (by simp [he.incremental])
    | update h => exact absurd h (by simp [he.op])
    | moved h _ => exact absurd h (by simp [he.op])
    | delete _ => exact ⟨old, by simp [SourceEvent.named], hshown _ hkey⟩
  | truncate ht _ => exact absurd ht hkind

omit [DecidableEq V] [ToString C] in
theorem Renders.isTruncate_iff (h : layout.Renders event e) :
    event.isTruncate = true ↔ e.kind = .truncate := by
  cases h with
  | insert he _ => simp [SourceEvent.isTruncate, he.kind]
  | update he _ _ => simp [SourceEvent.isTruncate, he.kind]
  | delete he _ _ => simp [SourceEvent.isTruncate, he.kind]
  | truncate ht _ => simp [SourceEvent.isTruncate, ht]

/-- **One text for a key.** Before the first truncate, updates and deletes name their rows by the
texts under which the rows `S` are held: a row of `S` whose key has the form of the named one has
it in the same text. -/
def OneText (layout : Layout C) (canonical : List (Option V) → List (Option V))
    (S : Multiset (Row C V)) (events : List (SourceEvent C V)) : Prop :=
  ∀ event ∈ beforeTruncate events, ∀ r ∈ event.named, ∀ s ∈ S,
    canonical (layout.key s) = canonical (layout.key r) → layout.key s = layout.key r

omit [DecidableEq V] [ToString C] in
/-- The keys that the records ask about have one text. -/
theorem OneText.askedKeys_subset
    (h : layout.OneText t.canonicalKey (contents t.rows) events)
    (hrender : List.Forall₂ (fun event record => layout.Renders event record.1) events records) :
    askedKeys layout.keyColumns records ⊆ {key | t.OneText layout.keyColumns key} := by
  have hnamed : ∀ key ∈ askedKeys layout.keyColumns records,
      ∃ event ∈ beforeTruncate events, ∃ r ∈ event.named, key = layout.key r := by
    clear h
    induction hrender with
    | nil => rintro key ⟨_, hmem, -⟩; cases hmem
    | @cons event record events records hrend _ ih =>
      rintro key ⟨q, hq, hasks⟩
      by_cases hkind : record.1.kind = .truncate
      · simp [hkind] at hq
      · have htruncate : event.isTruncate = false :=
          Bool.eq_false_iff.2 (mt hrend.isTruncate_iff.1 hkind)
        have hbefore : beforeTruncate (event :: events) = event :: beforeTruncate events := by
          simp [beforeTruncate, htruncate]
        rw [hbefore]
        rw [List.takeWhile_cons_of_pos (by simpa using hkind), List.mem_cons] at hq
        rcases hq with rfl | hq
        · exact ⟨event, List.mem_cons_self, hrend.named_of_asks hkind hasks⟩
        · obtain ⟨event', hevent', hr⟩ := ih key ⟨q, hq, hasks⟩
          exact ⟨event', List.mem_cons_of_mem _ hevent', hr⟩
  intro key hkey s hs heq
  obtain ⟨event, hevent, r, hr, rfl⟩ := hnamed key hkey
  exact h event hevent r hr s.values (mem_contents.2 ⟨s, hs, rfl⟩) heq

/-- The fold of a group whose named keys have one text is the fold by the texts. -/
theorem OneText.fold_byText (h : layout.OneText t.canonicalKey (contents t.rows) history.flatten)
    (hrender : List.Forall₂ (List.Forall₂ fun event record => layout.Renders event record.1)
      history group) (applied : String → Bool) (commitId : ℕ) (e : PendingRecord C V) :
    SameRun (forM group (foldTransaction (t.probe false applied) commitId))
      (forM group (foldTransaction (t.byText.probe false applied) commitId))
      (fun _ => Tidy layout.keyColumns {key | t.OneText layout.keyColumns key})
      (TableWork.create t.name e false false none) := by
  have hflat := List.rel_flatten hrender
  refine foldGroup_sameRun commitId (t.agreeOn_byText layout.keyColumns applied)
    ⟨⟨rfl, fun hid => ?_, fun k hk => ?_, fun htr => ?_⟩, fun r hr hkind => ?_,
      Or.inr (h.askedKeys_subset hflat)⟩
  · cases hid
  · simp [TableWork.create] at hk
  · cases htr
  · obtain ⟨event, _, hrend⟩ := forall₂_mem_right hflat hr
    obtain ⟨_, _, he⟩ := hrend.rowEvent hkind
    obtain ⟨image, himage, hkeys, -⟩ := he.key
    exact ⟨image, himage, hkeys⟩

/-- What holds of the fold of a group by the texts, where it does not raise. -/
def FoldsTo (t : Table C V) (applied : String → Bool) (commitId : ℕ) (group : Group C V)
    (R : TableWork C V → Prop) : Prop :=
  ∀ first ∈ group.flatten.head?, ∀ item,
    (forM group (foldTransaction (t.byText.probe false applied) commitId)).run
      (TableWork.create t.name first.1 false false none) = .ok () item → R item

/-- A fold that stands for rows whose keys have different forms. -/
def StandsApart (layout : Layout C) (t : Table C V) (item : TableWork C V) : Prop :=
  ∃ B, layout.Simulates (contents t.rows) item B ∧ layout.KeysApart t.canonicalKey B

/-- **A group that is applied** is applied when texts are compared. -/
theorem OneText.applyTable_byText
    (h : layout.OneText t.canonicalKey (contents t.rows) history.flatten)
    (hrender : List.Forall₂ (List.Forall₂ fun event record => layout.Renders event record.1)
      history group) (hD : layout.KeysApart t.canonicalKey (contents t.rows))
    (habsent : t.present = false → t.rows = [])
    (hfold : FoldsTo t applied commitId group (layout.StandsApart t)) {engine : LimitOne C V}
    {supportsPrimaryKey : Bool} {t' : Table C V}
    (hrun : applyTable engine supportsPrimaryKey applied commitId t group = .ok t') :
    applyTable engine supportsPrimaryKey applied commitId t.byText group = .ok t'.byText := by
  unfold applyTable at hrun ⊢
  cases hgroup : group.flatten with
  | nil =>
    simp only [hgroup] at hrun ⊢
    obtain rfl := Except.ok.inj hrun
    rfl
  | cons first rest =>
    simp only [hgroup] at hrun ⊢
    have hsame := h.fold_byText hrender applied commitId first.1
    split at hrun
    · cases hrun
    · rename_i item hitem
      obtain ⟨w, hw, hrun⟩ := except_bind_eq_ok.1 hrun
      obtain rfl := Except.ok.inj hrun
      have hitem' := hsame.run_eq.symm.trans hitem
      obtain ⟨B, hsim, hB⟩ := hfold first (by simp [hgroup]) item hitem'
      have hwrite : layout.WritesInTexts t B item := ⟨hsim, hD, hB, hsame.of_ok hitem⟩
      have hitem'' : (forM group (foldTransaction (t.byText.probe false applied) commitId)).run
          (TableWork.create t.byText.name first.1 false false none) = .ok () item := hitem'
      rw [hitem'']
      exact except_bind_eq_ok.2 ⟨w.byText, hwrite.write_byText habsent hw, rfl⟩

/-- **A group that is applied when texts are compared** is applied. -/
theorem OneText.applyTable_of_byText
    (h : layout.OneText t.canonicalKey (contents t.rows) history.flatten)
    (hrender : List.Forall₂ (List.Forall₂ fun event record => layout.Renders event record.1)
      history group) (hD : layout.KeysApart t.canonicalKey (contents t.rows))
    (habsent : t.present = false → t.rows = [])
    (hkeys : t.present = true → t.keyColumns = layout.keyColumns)
    (hfold : FoldsTo t applied commitId group fun item =>
      Started item ∧ layout.StandsApart t item) {engine : LimitOne C V}
    {supportsPrimaryKey : Bool} {t' : Table C V}
    (hrun : applyTable engine supportsPrimaryKey applied commitId t.byText group = .ok t') :
    ∃ t₁, applyTable engine supportsPrimaryKey applied commitId t group = .ok t₁ ∧
      t' = t₁.byText ∧ t₁.canonicalKey = t.canonicalKey := by
  unfold applyTable at hrun ⊢
  cases hgroup : group.flatten with
  | nil =>
    simp only [hgroup] at hrun ⊢
    obtain rfl := Except.ok.inj hrun
    exact ⟨t, rfl, rfl, rfl⟩
  | cons first rest =>
    simp only [hgroup] at hrun ⊢
    have hsame := h.fold_byText hrender applied commitId first.1
    split at hrun
    · cases hrun
    · rename_i item hitem
      obtain ⟨w', hw, hrun⟩ := except_bind_eq_ok.1 hrun
      obtain rfl := Except.ok.inj hrun
      have hitem' := hsame.run_eq.trans hitem
      obtain ⟨hstarted, B, hsim, hB⟩ := hfold first (by simp [hgroup]) item hitem
      have hwrite : layout.WritesInTexts t B item := ⟨hsim, hD, hB, hsame.of_ok hitem'⟩
      obtain ⟨w, hwritten, rfl, hcanonical⟩ := hwrite.write_of_byText habsent hkeys hstarted hw
      rw [hitem']
      exact ⟨w.table, except_bind_eq_ok.2 ⟨w, hwritten, rfl⟩, rfl, hcanonical⟩

end Group

end Layout

end CdcFlight
