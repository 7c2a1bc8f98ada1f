import CdcFlight.Identity.Distinct

/-!
# Order tokens against the source order

The history of a target holds the rows of every generation of its relation, and
`scd2.apply_event` compares their tokens as texts. The source orders the row events of a relation
by timeline, commit LSN and ordinal. In a token the generation stands between the timeline and the
commit LSN, in base 64, so that two events of one timeline and of different generations compare by
the encoded generations alone.

## Main definitions

* `CdcFlight.Scd2.OfRelation`: the identities of the row events of one relation.
* `CdcFlight.Scd2.TokensFollow`: the tokens of two events compare like their source places.
* `CdcFlight.Scd2.GenerationsFollow`: the encoded generations do not contradict the source order.

## Main results

* `CdcFlight.Scd2.tokensFollow_iff`: tokens follow the source exactly when the generations do.
-/

namespace CdcFlight.Scd2

open Lib

/-! ### Places in the source -/

/-- The facts `transaction_order_token` reads, of a row event of the relation of a cluster: they
are all there, the timeline is a 32-bit number, the commit LSN a 64-bit one and the ordinal a
positive `BIGINT`. -/
structure OfRelation (cluster : String) (identity : EventIdentity) (timeline : ℕ)
    (generation : String) (commitLsn totalOrder : ℕ) : Prop where
  cluster_ne : cluster ≠ ""
  generation_ne : generation ≠ ""
  sourceClusterId : identity.sourceClusterId = some cluster
  sourceTimeline : identity.sourceTimeline = some (timeline : ℤ)
  relationGeneration : identity.relationGeneration = some generation
  commitLsn_eq : identity.commitLsn = some commitLsn
  totalOrder_eq : identity.totalOrder = some (totalOrder : ℤ)
  timeline_lt : timeline < 2 ^ 32
  commitLsn_lt : commitLsn < 2 ^ 64
  totalOrder_lt : totalOrder < 2 ^ 63

/-- The place of a row event in the source: timeline, then commit LSN, then ordinal. -/
abbrev SourcePlace := ℕ ×ₗ ℕ ×ₗ ℕ

/-- The source place of an identity. -/
def sourcePlace (identity : EventIdentity) : SourcePlace :=
  toLex ((identity.sourceTimeline.getD 0).toNat,
    toLex (identity.commitLsn.getD 0, (identity.totalOrder.getD 0).toNat))

/-- The tokens of two identities exist, compare like the source places, and are equal for one
place only. -/
def TokensFollow (identity₁ identity₂ : EventIdentity) : Prop :=
  ∃ token₁ token₂, transactionOrderToken identity₁ = .ok token₁ ∧
    transactionOrderToken identity₂ = .ok token₂ ∧
    (token₁ < token₂ ↔ sourcePlace identity₁ < sourcePlace identity₂) ∧
    (token₂ < token₁ ↔ sourcePlace identity₂ < sourcePlace identity₁) ∧
    (token₁ = token₂ → sourcePlace identity₁ = sourcePlace identity₂)

/-- The generation as it stands in a token, with the point that closes it. -/
def closedGeneration (identity : EventIdentity) : List Char :=
  (component (identity.relationGeneration.getD "")).toList ++ ['.']

/-- The events are of different timelines or of one generation, or their encoded generations
compare like their places. -/
def GenerationsFollow (identity₁ identity₂ : EventIdentity) : Prop :=
  identity₁.sourceTimeline ≠ identity₂.sourceTimeline ∨
    identity₁.relationGeneration = identity₂.relationGeneration ∨
    closedGeneration identity₁ < closedGeneration identity₂ ∧
      sourcePlace identity₁ < sourcePlace identity₂ ∨
    closedGeneration identity₂ < closedGeneration identity₁ ∧
      sourcePlace identity₂ < sourcePlace identity₁

/-! ### The parts of a token -/

/-- Everything of a token after its timeline. -/
def tokenRest (generation : String) (commitLsn totalOrder : ℕ) : List Char :=
  (component generation).toList ++ '.' ::
    (zeroPadded 20 commitLsn ++ '.' :: zeroPadded 20 totalOrder)

theorem toList_orderToken (cluster generation : String) (timeline commitLsn totalOrder : ℕ) :
    (orderToken cluster timeline generation commitLsn totalOrder).toList =
      ((component cluster).toList ++ ['.']) ++
        (zeroPadded 20 timeline ++ '.' :: tokenRest generation commitLsn totalOrder) := by
  have hpoint : ".".toList = ['.'] := by decide
  simp only [orderToken, tokenRest, String.toList_append, String.toList_ofList, hpoint,
    List.append_assoc, List.singleton_append]
  rfl

/-- Tokens of one cluster compare by the timeline, then by the rest. -/
theorem orderToken_lt_iff_rest {cluster generation₁ generation₂ : String}
    {t₁ t₂ l₁ l₂ o₁ o₂ : ℕ} (ht₁ : Fits t₁) (ht₂ : Fits t₂) :
    orderToken cluster t₁ generation₁ l₁ o₁ < orderToken cluster t₂ generation₂ l₂ o₂ ↔
      t₁ < t₂ ∨ t₁ = t₂ ∧ tokenRest generation₁ l₁ o₁ < tokenRest generation₂ l₂ o₂ := by
  have hlen : (zeroPadded 20 t₁).length = (zeroPadded 20 t₂).length := by
    rw [length_zeroPadded (by decide) ht₁, length_zeroPadded (by decide) ht₂]
  have heq : zeroPadded 20 t₁ = zeroPadded 20 t₂ ↔ t₁ = t₂ :=
    ⟨zeroPadded_inj (by decide) ht₁ ht₂, fun h => by rw [h]⟩
  rw [String.lt_iff, toList_orderToken, toList_orderToken, append_lt_append_iff rfl,
    append_lt_append_iff hlen, zeroPadded_lt_iff (by decide) ht₁ ht₂, heq, List.cons_lt_cons_iff]
  simp only [lt_irrefl, false_or, true_and]

/-- A separator that stands in neither text decides the comparison of different texts before what
follows it. -/
theorem append_cons_lt_append_cons_iff {c : Char} {a b x y : List Char} (ha : c ∉ a) (hb : c ∉ b)
    (hne : a ≠ b) : a ++ c :: x < b ++ c :: y ↔ a ++ [c] < b ++ [c] := by
  induction a generalizing b with
  | nil =>
    obtain _ | ⟨d, b⟩ := b
    · exact absurd rfl hne
    · have hcd : c ≠ d := fun h => hb (h ▸ List.mem_cons_self)
      simp only [List.nil_append, List.cons_append, List.cons_lt_cons_iff, hcd, false_and]
  | cons d a ih =>
    obtain _ | ⟨e, b⟩ := b
    · have hdc : d ≠ c := fun h => ha (h ▸ List.mem_cons_self)
      simp only [List.nil_append, List.cons_append, List.cons_lt_cons_iff, hdc, false_and]
    · simp only [List.cons_append, List.cons_lt_cons_iff]
      refine or_congr Iff.rfl
        (and_congr_right fun h => ih (fun hc => ha (List.mem_cons_of_mem _ hc))
        (fun hc => hb (List.mem_cons_of_mem _ hc)) fun hab => hne (by rw [h, hab]))

/-- Different generations decide the comparison before the positions. -/
theorem tokenRest_lt_iff_of_ne {generation₁ generation₂ : String} {l₁ l₂ o₁ o₂ : ℕ}
    (hne : generation₁ ≠ generation₂) :
    tokenRest generation₁ l₁ o₁ < tokenRest generation₂ l₂ o₂ ↔
      (component generation₁).toList ++ ['.'] < (component generation₂).toList ++ ['.'] :=
  append_cons_lt_append_cons_iff (point_notMem_component _) (point_notMem_component _)
    fun h => hne (component_inj (String.toList_injective h))

/-- Within a generation the positions compare. -/
theorem tokenRest_lt_iff {generation : String} {l₁ l₂ o₁ o₂ : ℕ} (hl₁ : Fits l₁) (hl₂ : Fits l₂)
    (ho₁ : Fits o₁) (ho₂ : Fits o₂) :
    tokenRest generation l₁ o₁ < tokenRest generation l₂ o₂ ↔ l₁ < l₂ ∨ l₁ = l₂ ∧ o₁ < o₂ := by
  have hzero : Fits 0 := by norm_num [Fits]
  have h : orderToken generation (0 : ℕ) generation l₁ o₁ <
      orderToken generation (0 : ℕ) generation l₂ o₂ ↔ _ := orderToken_lt_iff hl₁ hl₂ ho₁ ho₂
  rw [orderToken_lt_iff_rest hzero hzero] at h
  simpa only [lt_irrefl, true_and, false_or] using h

/-! ### Tokens and places -/

section Follow

variable {cluster generation generation₁ generation₂ : String} {identity identity₁ identity₂ :
  EventIdentity} {t l o t₁ t₂ l₁ l₂ o₁ o₂ : ℕ}

theorem OfRelation.token (h : OfRelation cluster identity t generation l o) :
    transactionOrderToken identity = .ok (orderToken cluster t generation l o) := by
  simp only [transactionOrderToken, h.sourceClusterId, h.sourceTimeline, h.relationGeneration,
    h.commitLsn_eq, h.totalOrder_eq]
  rw [if_pos ⟨h.cluster_ne, h.generation_ne⟩]

theorem OfRelation.place (h : OfRelation cluster identity t generation l o) :
    sourcePlace identity = toLex (t, toLex (l, o)) := by
  simp [sourcePlace, h.sourceTimeline, h.commitLsn_eq, h.totalOrder_eq]

theorem OfRelation.closed (h : OfRelation cluster identity t generation l o) :
    closedGeneration identity = (component generation).toList ++ ['.'] := by
  simp [closedGeneration, h.relationGeneration]

theorem OfRelation.fits (h : OfRelation cluster identity t generation l o) :
    Fits t ∧ Fits l ∧ Fits o :=
  ⟨h.timeline_lt.trans (by decide), h.commitLsn_lt.trans (by decide),
    h.totalOrder_lt.trans (by decide)⟩

theorem place_lt_iff : (toLex (t₁, toLex (l₁, o₁)) : SourcePlace) < toLex (t₂, toLex (l₂, o₂)) ↔
    t₁ < t₂ ∨ t₁ = t₂ ∧ (l₁ < l₂ ∨ l₁ = l₂ ∧ o₁ < o₂) := by
  rw [Prod.Lex.toLex_lt_toLex, Prod.Lex.toLex_lt_toLex]

/-- Tokens of different timelines compare by the timelines. -/
theorem follow_of_timeline_ne (h₁ : OfRelation cluster identity₁ t₁ generation₁ l₁ o₁)
    (h₂ : OfRelation cluster identity₂ t₂ generation₂ l₂ o₂) (hne : t₁ ≠ t₂) :
    orderToken cluster t₁ generation₁ l₁ o₁ < orderToken cluster t₂ generation₂ l₂ o₂ ↔
      sourcePlace identity₁ < sourcePlace identity₂ := by
  rw [orderToken_lt_iff_rest h₁.fits.1 h₂.fits.1, h₁.place, h₂.place, place_lt_iff]
  simp only [hne, false_and]

/-- Tokens of one generation compare like the places. -/
theorem follow_of_generation_eq (h₁ : OfRelation cluster identity₁ t₁ generation l₁ o₁)
    (h₂ : OfRelation cluster identity₂ t₂ generation l₂ o₂) :
    orderToken cluster t₁ generation l₁ o₁ < orderToken cluster t₂ generation l₂ o₂ ↔
      sourcePlace identity₁ < sourcePlace identity₂ := by
  rw [orderToken_lt_iff_rest h₁.fits.1 h₂.fits.1, h₁.place, h₂.place, place_lt_iff,
    tokenRest_lt_iff h₁.fits.2.1 h₂.fits.2.1 h₁.fits.2.2 h₂.fits.2.2]

/-- Tokens of different generations of a timeline compare by the encoded generations. -/
theorem follow_of_generation_ne (h₁ : OfRelation cluster identity₁ t generation₁ l₁ o₁)
    (h₂ : OfRelation cluster identity₂ t generation₂ l₂ o₂) (hne : generation₁ ≠ generation₂) :
    orderToken cluster t generation₁ l₁ o₁ < orderToken cluster t generation₂ l₂ o₂ ↔
      closedGeneration identity₁ < closedGeneration identity₂ := by
  rw [orderToken_lt_iff_rest h₁.fits.1 h₂.fits.1, tokenRest_lt_iff_of_ne hne, h₁.closed, h₂.closed]
  simp

theorem closedGeneration_ne (h₁ : OfRelation cluster identity₁ t₁ generation₁ l₁ o₁)
    (h₂ : OfRelation cluster identity₂ t₂ generation₂ l₂ o₂) (hne : generation₁ ≠ generation₂) :
    closedGeneration identity₁ ≠ closedGeneration identity₂ := by
  rw [h₁.closed, h₂.closed]
  exact fun h => hne (component_inj (String.toList_injective (List.append_cancel_right h)))

/-- Texts that compare like the places are equal for one place only. -/
theorem place_eq_of_not_lt {x y : String} {p q : SourcePlace} (hlt : x < y ↔ p < q)
    (hgt : y < x ↔ q < p) (h : x = y) : p = q := by
  subst h
  exact le_antisymm (not_lt.1 fun hlt' => lt_irrefl x (hgt.2 hlt'))
    (not_lt.1 fun hlt' => lt_irrefl x (hlt.2 hlt'))

/-- **Tokens follow the source order exactly when the generations do.** -/
theorem tokensFollow_iff (h₁ : OfRelation cluster identity₁ t₁ generation₁ l₁ o₁)
    (h₂ : OfRelation cluster identity₂ t₂ generation₂ l₂ o₂) :
    TokensFollow identity₁ identity₂ ↔ GenerationsFollow identity₁ identity₂ := by
  have hfollow (hlt : orderToken cluster t₁ generation₁ l₁ o₁ <
        orderToken cluster t₂ generation₂ l₂ o₂ ↔ sourcePlace identity₁ < sourcePlace identity₂)
      (hgt : orderToken cluster t₂ generation₂ l₂ o₂ <
        orderToken cluster t₁ generation₁ l₁ o₁ ↔ sourcePlace identity₂ < sourcePlace identity₁) :
      TokensFollow identity₁ identity₂ :=
    ⟨_, _, h₁.token, h₂.token, hlt, hgt, place_eq_of_not_lt hlt hgt⟩
  by_cases ht : t₁ = t₂
  swap
  · refine iff_of_true (hfollow (follow_of_timeline_ne h₁ h₂ ht)
      (follow_of_timeline_ne h₂ h₁ (Ne.symm ht))) (Or.inl ?_)
    rw [h₁.sourceTimeline, h₂.sourceTimeline]
    exact fun h => ht (by exact_mod_cast Option.some.inj h)
  subst ht
  by_cases hg : generation₁ = generation₂
  · subst hg
    refine iff_of_true (hfollow (follow_of_generation_eq h₁ h₂) (follow_of_generation_eq h₂ h₁))
      (Or.inr (Or.inl ?_))
    rw [h₁.relationGeneration, h₂.relationGeneration]
  have hlt := follow_of_generation_ne h₁ h₂ hg
  have hgt := follow_of_generation_ne h₂ h₁ (Ne.symm hg)
  constructor
  · rintro ⟨token₁, token₂, htok₁, htok₂, hlt', hgt', -⟩
    obtain rfl := Except.ok.inj (h₁.token.symm.trans htok₁)
    obtain rfl := Except.ok.inj (h₂.token.symm.trans htok₂)
    rcases lt_or_gt_of_ne (closedGeneration_ne h₁ h₂ hg) with h | h
    · exact Or.inr (Or.inr (Or.inl ⟨h, hlt'.1 (hlt.2 h)⟩))
    · exact Or.inr (Or.inr (Or.inr ⟨h, hgt'.1 (hgt.2 h)⟩))
  · rintro (h | h | ⟨h, hplace⟩ | ⟨h, hplace⟩)
    · exact absurd (by rw [h₁.sourceTimeline, h₂.sourceTimeline]) h
    · exact absurd (Option.some.inj
        (h₁.relationGeneration.symm.trans (h.trans h₂.relationGeneration))) hg
    · exact hfollow (hlt.trans (iff_of_true h hplace))
        (hgt.trans (iff_of_false h.asymm hplace.asymm))
    · exact hfollow (hlt.trans (iff_of_false h.asymm hplace.asymm))
        (hgt.trans (iff_of_true h hplace))

end Follow

end CdcFlight.Scd2

namespace CdcFlight

namespace Accounts

open Scd2

/-- A row event of the relation with oid 16384, in a file of it. -/
def rewrittenEvent (filenode : String) (lsn order : ℕ) : EventIdentity where
  eventId := "row"
  sourceClusterId := some "app"
  sourceTimeline := some 1
  relationGeneration := some ("16384:" ++ filenode ++ ":16386")
  commitLsn := some lsn
  totalOrder := some order

theorem ofRelation_rewrittenEvent (filenode : String) (lsn order : ℕ) (hlsn : lsn < 2 ^ 64)
    (horder : order < 2 ^ 63) : OfRelation "app" (rewrittenEvent filenode lsn order) 1
      ("16384:" ++ filenode ++ ":16386") lsn order where
  cluster_ne := by decide
  generation_ne h := by simpa using congrArg String.toList h
  sourceClusterId := rfl
  sourceTimeline := rfl
  relationGeneration := rfl
  commitLsn_eq := rfl
  totalOrder_eq := rfl
  timeline_lt := by decide
  commitLsn_lt := hlsn
  totalOrder_lt := horder

/-- The file 16401 follows the file 16400, also in the tokens. -/
theorem tokensFollow_rewrittenEvent :
    TokensFollow (rewrittenEvent "16400" 100 1) (rewrittenEvent "16401" 200 1) :=
  (tokensFollow_iff (ofRelation_rewrittenEvent _ 100 1 (by norm_num) (by norm_num))
    (ofRelation_rewrittenEvent _ 200 1 (by norm_num) (by norm_num))).2
      (Or.inr (Or.inr (Or.inl ⟨by decide, by decide⟩)))

/-- **A rewrite from file 16399 to file 16400 turns the order of the tokens.** -/
theorem not_tokensFollow_rewrittenEvent :
    OfRelation "app" (rewrittenEvent "16399" 100 1) 1 "16384:16399:16386" 100 1 ∧
    OfRelation "app" (rewrittenEvent "16400" 200 1) 1 "16384:16400:16386" 200 1 ∧
    ¬ TokensFollow (rewrittenEvent "16399" 100 1) (rewrittenEvent "16400" 200 1) := by
  have hof := ofRelation_rewrittenEvent "16399" 100 1 (by norm_num) (by norm_num)
  have hof' := ofRelation_rewrittenEvent "16400" 200 1 (by norm_num) (by norm_num)
  refine ⟨hof, hof', ?_⟩
  rintro ⟨token₁, token₂, h₁, h₂, hlt, -⟩
  have hplace : sourcePlace (rewrittenEvent "16399" 100 1) <
      sourcePlace (rewrittenEvent "16400" 200 1) := by decide
  have htoken : ¬ orderToken "app" (1 : ℕ) "16384:16399:16386" (100 : ℕ) (1 : ℕ) <
      orderToken "app" (1 : ℕ) "16384:16400:16386" (200 : ℕ) (1 : ℕ) := by decide
  obtain rfl := Except.ok.inj (hof.token.symm.trans h₁)
  obtain rfl := Except.ok.inj (hof'.token.symm.trans h₂)
  exact htoken (hlt.2 hplace)

end Accounts

end CdcFlight
