import CdcFlight.EventLedger
import CdcFlight.Lib.Text

/-!
# Source-order tokens and streamed event identities

`scd2.transaction_order_token`: a text that orders the events of one source generation by commit
LSN, then by their place in the transaction. Python and the destination compare texts code point
by code point; the two numbers are written with twenty digits, so that the comparison is the
numeric one for every number a 64-bit position can hold.

The streamed identity of `event_ledger.identity_for` is a text over the same facts and the
transaction id, without padding.

## Main definitions

* `CdcFlight.component`: a text in unpadded URL-safe base 64.
* `CdcFlight.Scd2.transactionOrderToken`: the order token of an identity, or a refusal.
* `CdcFlight.streamEventId`: the identity of a streamed event.

## Main results

* `CdcFlight.Scd2.orderToken_lt_iff`: tokens of one generation compare as pairs of numbers.
* `CdcFlight.streamEventId_inj`: a streamed identity determines the event's place.
-/

namespace CdcFlight

open Lib

/-! ### Components -/

/-- The URL-safe base 64 alphabet. -/
def base64Alphabet : List Char :=
  "ABCDEFGHIJKLMNOPQRSTUVWXYZabcdefghijklmnopqrstuvwxyz0123456789-_".toList

def base64Char (n : ℕ) : Char := base64Alphabet.getD n '_'

/-- `base64.urlsafe_b64encode(...).rstrip("=")` on a list of bytes. -/
def base64 : List UInt8 → List Char
  | a :: b :: c :: rest =>
    let n := a.toNat * 65536 + b.toNat * 256 + c.toNat
    base64Char (n / 262144) :: base64Char (n / 4096 % 64) :: base64Char (n / 64 % 64) ::
      base64Char (n % 64) :: base64 rest
  | [a, b] =>
    let n := a.toNat * 65536 + b.toNat * 256
    [base64Char (n / 262144), base64Char (n / 4096 % 64), base64Char (n / 64 % 64)]
  | [a] =>
    let n := a.toNat * 65536
    [base64Char (n / 262144), base64Char (n / 4096 % 64)]
  | [] => []

/-- `event_ledger._component` and the `component` of `transaction_order_token`. -/
def component (value : String) : String :=
  let encoded := base64 (value.toList.flatMap String.utf8EncodeChar)
  if encoded = [] then "_" else String.ofList encoded

example : component "app:1" = "YXBwOjE" := by rfl

/-- The format `020d` of an integer; a sign counts into the width. -/
def twentyDigits : ℤ → List Char
  | .ofNat n => zeroPadded 20 n
  | .negSucc n => '-' :: zeroPadded 19 (n + 1)

/-! ### Order tokens -/

namespace Scd2

/-- The errors `scd2.py` raises: `SCD2IdentityRefused`, the ledger's collision, and an error of
the destination engine (a duplicate event id, a column the history table does not have). -/
inductive Raised
  | identityRefused (message : String) (sourceSchema sourceTable target : Option String)
  | identityCollision (collision : IdentityCollision)
  | destination (message : String)
deriving DecidableEq, Repr

/-- The token of complete order facts. -/
def orderToken (cluster : String) (timeline : ℤ) (generation : String) (commitLsn : ℕ)
    (totalOrder : ℤ) : String :=
  component cluster ++ "." ++ String.ofList (twentyDigits timeline) ++ "." ++
    component generation ++ "." ++ String.ofList (twentyDigits commitLsn) ++ "." ++
    String.ofList (twentyDigits totalOrder)

/-- `transaction_order_token`. -/
def transactionOrderToken (identity : EventIdentity) : Except Raised String :=
  match identity.sourceClusterId, identity.sourceTimeline, identity.relationGeneration,
    identity.commitLsn, identity.totalOrder with
  | some cluster, some timeline, some generation, some commitLsn, some totalOrder =>
    if cluster ≠ "" ∧ generation ≠ "" then
      .ok (orderToken cluster timeline generation commitLsn totalOrder)
    else .error (.identityRefused ("SCD2 transaction order needs source cluster, timeline, " ++
      "relation generation, commit LSN, and transaction total_order") none none none)
  | _, _, _, _, _ =>
    .error (.identityRefused ("SCD2 transaction order needs source cluster, timeline, " ++
      "relation generation, commit LSN, and transaction total_order") none none none)

/-- The positions the token writes with exactly twenty digits. Commit LSNs are below `2 ^ 64` and
transaction ordinals below `2 ^ 63`. -/
def Fits (n : ℕ) : Prop := n < 10 ^ 20

/-- **Tokens of one generation compare as pairs of numbers.** -/
theorem orderToken_lt_iff {cluster generation : String} {timeline : ℤ} {l₁ l₂ o₁ o₂ : ℕ}
    (hl₁ : Fits l₁) (hl₂ : Fits l₂) (ho₁ : Fits o₁) (ho₂ : Fits o₂) :
    orderToken cluster timeline generation l₁ o₁ < orderToken cluster timeline generation l₂ o₂ ↔
      l₁ < l₂ ∨ l₁ = l₂ ∧ o₁ < o₂ := by
  have hlen : (zeroPadded 20 l₁).length = (zeroPadded 20 l₂).length := by
    rw [length_zeroPadded (by decide) hl₁, length_zeroPadded (by decide) hl₂]
  rw [String.lt_iff]
  simp only [orderToken, twentyDigits, String.toList_append, String.toList_ofList,
    List.append_assoc, append_lt_append_iff rfl, lt_irrefl, false_or, true_and]
  change zeroPadded 20 l₁ ++ (".".toList ++ zeroPadded 20 o₁) <
    zeroPadded 20 l₂ ++ (".".toList ++ zeroPadded 20 o₂) ↔ _
  rw [append_lt_append_iff hlen, append_lt_append_iff rfl]
  simp only [lt_irrefl, false_or, true_and]
  rw [zeroPadded_lt_iff (by decide) hl₁ hl₂, zeroPadded_lt_iff (by decide) ho₁ ho₂]
  constructor
  · rintro (h | ⟨h, h'⟩)
    · exact Or.inl h
    · exact Or.inr ⟨zeroPadded_inj (by decide) hl₁ hl₂ h, h'⟩
  · rintro (h | ⟨rfl, h'⟩)
    · exact Or.inl h
    · exact Or.inr ⟨rfl, h'⟩

end Scd2

/-! ### Streamed identities -/

/-- The `v2` identity of `identity_for`, from complete source facts. -/
def streamEventId (cluster : String) (timeline : ℤ) (generation txnId : String) (commitLsn : ℕ)
    (totalOrder : ℤ) : String :=
  "v2." ++ component cluster ++ "." ++ toString timeline ++ "." ++ component generation ++ "." ++
    component txnId ++ "." ++ toString commitLsn ++ "." ++ toString totalOrder

/-- A text splits in one way at its last point. -/
private theorem append_point_inj {a b x y : List Char} (hx : '.' ∉ x) (hy : '.' ∉ y)
    (h : a ++ ".".toList ++ x = b ++ ".".toList ++ y) : a = b ∧ x = y := by
  have hpoint : ".".toList = ['.'] := rfl
  rw [hpoint, List.append_assoc, List.append_assoc, List.singleton_append,
    List.singleton_append] at h
  rcases List.append_eq_append_iff.1 h with ⟨c, rfl, hc⟩ | ⟨c, rfl, hc⟩
  · cases c with
    | nil => simpa using hc
    | cons d c => exact absurd (by simp_all) hx
  · cases c with
    | nil => simpa [eq_comm] using hc
    | cons d c => exact absurd (by simp_all) hy

private theorem point_notMem_toDigits (n : ℕ) : '.' ∉ Nat.toDigits 10 n := fun h => by
  simpa using Nat.isDigit_of_mem_toDigits (by decide) (by decide) h

private theorem toDigits_injective {n m : ℕ} (h : Nat.toDigits 10 n = Nat.toDigits 10 m) :
    n = m := by
  have hparse := congrArg (fun digits => Nat.ofDigitChars 10 digits 0) h
  simpa using hparse

/-- **A streamed identity determines the place of its event**: the commit LSN and the ordinal in
the transaction. -/
theorem streamEventId_inj {cluster₁ cluster₂ generation₁ generation₂ txn₁ txn₂ : String}
    {timeline₁ timeline₂ : ℤ} {l₁ l₂ o₁ o₂ : ℕ}
    (h : streamEventId cluster₁ timeline₁ generation₁ txn₁ l₁ o₁ =
      streamEventId cluster₂ timeline₂ generation₂ txn₂ l₂ o₂) : l₁ = l₂ ∧ o₁ = o₂ := by
  have hlist := congrArg String.toList h
  have ho : ∀ o : ℕ, (toString (o : ℤ)).toList = Nat.toDigits 10 o := fun o => by
    change (toString o).toList = _
    simp
  have hl : ∀ l : ℕ, (toString l).toList = Nat.toDigits 10 l := fun l => by simp
  simp only [streamEventId, String.toList_append, ho, hl] at hlist
  obtain ⟨hlist, hord⟩ := append_point_inj (point_notMem_toDigits o₁) (point_notMem_toDigits o₂)
    hlist
  obtain ⟨-, hlsn⟩ := append_point_inj (point_notMem_toDigits l₁) (point_notMem_toDigits l₂)
    hlist
  exact ⟨toDigits_injective hlsn, toDigits_injective hord⟩

end CdcFlight
