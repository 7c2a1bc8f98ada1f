import CdcFlight.Identity.Build
import CdcFlight.Lib.Joined

/-!
# Distinct events have distinct identities

The identities share one ledger. Streamed rows and messages join encoded components and numbers
with points, so that the joined text determines them. A snapshot identity joins the epoch, the
schema and the table as they are, and the ordinal: it determines the epoch, the ordinal and the
joined name, but not where the name was joined. A message that has no position of its own is
identified by the position of its commit, before its sequence is looked at.

## Main definitions

* `CdcFlight.SourceFacts`: the facts that tell source events apart.
* `CdcFlight.Confusable`: the pairs of events the identities do not tell apart.

## Main results

* `CdcFlight.component_inj`: an encoded component determines the text.
* `CdcFlight.eventId_ne_iff`: events with different facts have different identities, unless they
  are confusable.
-/

namespace CdcFlight

open Lib

/-! ### Components -/

theorem base64Char_inj {n m : ℕ} (hn : n < 64) (hm : m < 64) (h : base64Char n = base64Char m) :
    n = m := by
  have hlength : base64Alphabet.length = 64 := by rfl
  have hnodup : base64Alphabet.Nodup := by decide
  rw [base64Char, base64Char, List.getD_eq_getElem _ _ (by omega),
    List.getD_eq_getElem _ _ (by omega)] at h
  exact (hnodup.getElem_inj_iff).1 h

theorem base64Char_mem (n : ℕ) : base64Char n ∈ base64Alphabet := by
  rw [base64Char]
  by_cases hn : n < base64Alphabet.length
  · rw [List.getD_eq_getElem _ _ hn]
    exact List.getElem_mem hn
  · rw [List.getD_eq_default _ _ (by omega)]
    decide

theorem notMem_base64 {c : Char} (hc : c ∉ base64Alphabet) (bytes : List UInt8) :
    c ∉ base64 bytes := by
  have hne (n : ℕ) : c ≠ base64Char n := fun h => hc (h ▸ base64Char_mem n)
  fun_induction base64 bytes with
  | case1 a b d rest n ih => simp [hne, ih]
  | case2 a b n => simp [hne]
  | case3 a n => simp [hne]
  | case4 => simp

/-- The four characters of three bytes determine them. -/
private theorem three_bytes_inj {a b c a' b' c' : UInt8}
    (h₁ : base64Char ((a.toNat * 65536 + b.toNat * 256 + c.toNat) / 262144) =
      base64Char ((a'.toNat * 65536 + b'.toNat * 256 + c'.toNat) / 262144))
    (h₂ : base64Char ((a.toNat * 65536 + b.toNat * 256 + c.toNat) / 4096 % 64) =
      base64Char ((a'.toNat * 65536 + b'.toNat * 256 + c'.toNat) / 4096 % 64))
    (h₃ : base64Char ((a.toNat * 65536 + b.toNat * 256 + c.toNat) / 64 % 64) =
      base64Char ((a'.toNat * 65536 + b'.toNat * 256 + c'.toNat) / 64 % 64))
    (h₄ : base64Char ((a.toNat * 65536 + b.toNat * 256 + c.toNat) % 64) =
      base64Char ((a'.toNat * 65536 + b'.toNat * 256 + c'.toNat) % 64)) :
    a = a' ∧ b = b' ∧ c = c' := by
  have ha := a.toNat_lt
  have hb := b.toNat_lt
  have hc := c.toNat_lt
  have ha' := a'.toNat_lt
  have hb' := b'.toNat_lt
  have hc' := c'.toNat_lt
  have e₁ := base64Char_inj (by omega) (by omega) h₁
  have e₂ := base64Char_inj (by omega) (by omega) h₂
  have e₃ := base64Char_inj (by omega) (by omega) h₃
  have e₄ := base64Char_inj (by omega) (by omega) h₄
  exact ⟨UInt8.toNat_inj.1 (by omega), UInt8.toNat_inj.1 (by omega), UInt8.toNat_inj.1 (by omega)⟩

theorem base64_inj : ∀ {x y : List UInt8}, base64 x = base64 y → x = y
  | [], [], _ => rfl
  | [], [_], h => by simp [base64] at h
  | [], [_, _], h => by simp [base64] at h
  | [], _ :: _ :: _ :: _, h => by simp [base64] at h
  | [_], [], h => by simp [base64] at h
  | [a], [a'], h => by
    simp only [base64, List.cons.injEq, and_true] at h
    have ha := a.toNat_lt
    have ha' := a'.toNat_lt
    have e₁ := base64Char_inj (by omega) (by omega) h.1
    have e₂ := base64Char_inj (by omega) (by omega) h.2
    rw [UInt8.toNat_inj.1 (by omega : a.toNat = a'.toNat)]
  | [_], [_, _], h => by simp [base64] at h
  | [_], _ :: _ :: _ :: _, h => by simp [base64] at h
  | [_, _], [], h => by simp [base64] at h
  | [_, _], [_], h => by simp [base64] at h
  | [a, b], [a', b'], h => by
    simp only [base64, List.cons.injEq, and_true] at h
    have ha := a.toNat_lt
    have hb := b.toNat_lt
    have ha' := a'.toNat_lt
    have hb' := b'.toNat_lt
    have e₁ := base64Char_inj (by omega) (by omega) h.1
    have e₂ := base64Char_inj (by omega) (by omega) h.2.1
    have e₃ := base64Char_inj (by omega) (by omega) h.2.2
    rw [UInt8.toNat_inj.1 (by omega : a.toNat = a'.toNat),
      UInt8.toNat_inj.1 (by omega : b.toNat = b'.toNat)]
  | [_, _], _ :: _ :: _ :: _, h => by simp [base64] at h
  | _ :: _ :: _ :: _, [], h => by simp [base64] at h
  | _ :: _ :: _ :: _, [_], h => by simp [base64] at h
  | _ :: _ :: _ :: _, [_, _], h => by simp [base64] at h
  | a :: b :: c :: x, a' :: b' :: c' :: y, h => by
    simp only [base64, List.cons.injEq] at h
    obtain ⟨rfl, rfl, rfl⟩ := three_bytes_inj h.1 h.2.1 h.2.2.1 h.2.2.2.1
    rw [base64_inj h.2.2.2.2]

theorem utf8_inj {x y : String}
    (h : x.toList.flatMap String.utf8EncodeChar = y.toList.flatMap String.utf8EncodeChar) :
    x = y := by
  have hbytes : x.toList.utf8Encode = y.toList.utf8Encode := by
    rw [List.utf8Encode, List.utf8Encode, h]
  rw [String.utf8Encode_toList, String.utf8Encode_toList] at hbytes
  exact String.toByteArray_inj.1 hbytes

theorem base64_eq_nil_iff {bytes : List UInt8} : base64 bytes = [] ↔ bytes = [] :=
  ⟨fun h => base64_inj h, fun h => by rw [h]; rfl⟩

/-- No encoded component is a single character. -/
theorem base64_ne_singleton (bytes : List UInt8) (c : Char) : base64 bytes ≠ [c] := by
  fun_cases base64 bytes <;> simp

/-- **An encoded component determines the text.** -/
theorem component_inj {x y : String} (h : component x = component y) : x = y := by
  have hnil (s : String) : base64 (s.toList.flatMap String.utf8EncodeChar) = [] ↔ s = "" := by
    rw [base64_eq_nil_iff]
    exact ⟨fun hs => utf8_inj hs, fun hs => by rw [hs]; rfl⟩
  have hblank (s : String) : String.ofList (base64 (s.toList.flatMap String.utf8EncodeChar)) ≠
      "_" := fun hs => by
    have hlist := congrArg String.toList hs
    rw [String.toList_ofList] at hlist
    exact base64_ne_singleton _ _ hlist
  simp only [component] at h
  split_ifs at h with hx hy hy
  · rw [(hnil x).1 hx, (hnil y).1 hy]
  · exact absurd h.symm (hblank y)
  · exact absurd h (hblank x)
  · exact utf8_inj (base64_inj (String.ofList_inj.1 h))

theorem point_notMem_component (s : String) : '.' ∉ (component s).toList := by
  rw [component]
  split_ifs
  · decide
  · rw [String.toList_ofList]
    exact notMem_base64 (by decide) _

/-! ### Streamed identities -/

theorem streamEventId_eq_dotted (cluster : String) (timeline : ℤ) (generation txnId : String)
    (commitLsn : ℕ) (order : ℤ) : streamEventId cluster timeline generation txnId commitLsn order =
      dotted ["v2", component cluster, toString timeline, component generation, component txnId,
        toString commitLsn, toString order] := by
  simp [dotted, streamEventId, String.append_assoc]

theorem point_notMem_streamParts (cluster : String) (timeline : ℤ) (generation txnId : String)
    (commitLsn : ℕ) (order : ℤ) : ∀ part ∈ ["v2", component cluster, toString timeline,
      component generation, component txnId, toString commitLsn, toString order],
      '.' ∉ part.toList := by
  have hint (n : ℤ) : '.' ∉ (toString n).toList := notMem_toString_int (by decide) (by decide) n
  have hnat (n : ℕ) : '.' ∉ (toString n).toList := notMem_toString_nat (by decide) n
  have hv : '.' ∉ "v2".toList := by decide
  simp only [List.forall_mem_cons, hv, point_notMem_component, hint, hnat]
  simp

variable {C V : Type}

/-- The facts that tell source events apart: the place of a streamed row, of a message of a
transaction, of a message at a position of its own or, failing that, at a sequence, and of a row
of an initial snapshot. -/
inductive SourceFacts
  | row (cluster : String) (timeline : ℤ) (generation txnId : String) (commitLsn : ℕ) (order : ℤ)
  | transactionalMessage (cluster : String) (timeline : ℤ) (txnId : String) (order : ℤ)
      (position : ℕ)
  | message (cluster : String) (timeline : ℤ) (position : ℕ)
  | sequencedMessage (cluster : String) (timeline : ℤ) (sequence : String)
  | snapshotRow (epoch : ℕ) (schema table : String) (ordinal : ℕ)
deriving DecidableEq, Repr

/-- An event as the planner has it: with its scope, the catalog facts, and the epoch of the
snapshot it is a row of, if any. -/
structure Claimed (C V : Type) where
  scope : IdentityScope
  view : CatalogView := {}
  epoch : Option ℕ := none
  event : PendingRecord C V

namespace Claimed

variable (c : Claimed C V)

/-- The identity the event is claimed under. -/
def identity (digests : Digests C V) : Except IdentityError EventIdentity :=
  ledgerIdentity digests c.scope c.view c.epoch none c.event

/-- The lineage of the event, with the generation the planner resolves. -/
def lineage : SourceLineage :=
  lineageOf { c.scope with relationGeneration := relationGenerationFor c.view c.event } c.event

/-- The event has these facts, and they are complete: every component that the identity of such an
event is built from is there and not empty. Which facts an event has is a matter of its kind: a row
of a stream, a message in a transaction, one with a position or a sequence of its own, or a row of a
snapshot. -/
inductive HasFacts : SourceFacts → Prop
  | row {cluster generation txnId : String} {timeline order : ℤ} {commitLsn : ℕ}
      (hkind : c.event.kind ≠ .message) (hepoch : c.epoch = none)
      (hincremental : c.event.incremental = false) (hidentity : c.event.snapshotIdentity = none)
      (hlineage : c.lineage = ⟨some cluster, some timeline, some generation, some txnId,
        some commitLsn, some order⟩)
      (hne : cluster ≠ "" ∧ generation ≠ "" ∧ txnId ≠ "") :
      HasFacts (.row cluster timeline generation txnId commitLsn order)
  | transactionalMessage {cluster txnId : String} {timeline order : ℤ} {position : ℕ}
      (hkind : c.event.kind = .message) (htransactional : c.event.isTransactional = true)
      (hcluster : c.lineage.cluster = some cluster) (htimeline : c.lineage.timeline = some timeline)
      (htxn : c.event.txnId = some txnId) (horder : c.event.order = some order)
      (hposition : messageCursor c.scope c.event = some position)
      (hne : cluster ≠ "" ∧ txnId ≠ "") :
      HasFacts (.transactionalMessage cluster timeline txnId order position)
  | message {cluster : String} {timeline : ℤ} {position : ℕ}
      (hkind : c.event.kind = .message) (htransactional : c.event.isTransactional = false)
      (hcluster : c.lineage.cluster = some cluster) (htimeline : c.lineage.timeline = some timeline)
      (hposition : c.event.lsn = some position) (hne : cluster ≠ "") :
      HasFacts (.message cluster timeline position)
  | sequencedMessage {cluster sequence : String} {timeline : ℤ}
      (hkind : c.event.kind = .message) (htransactional : c.event.isTransactional = false)
      (hcluster : c.lineage.cluster = some cluster) (htimeline : c.lineage.timeline = some timeline)
      (hposition : c.event.lsn = none) (hsequence : c.event.sourceSequence = some sequence)
      (hne : cluster ≠ "" ∧ sequence ≠ "") :
      HasFacts (.sequencedMessage cluster timeline sequence)
  | snapshotRow {epoch ordinal : ℕ} {schema table : String}
      (hkind : c.event.kind ≠ .message) (hepoch : c.epoch = some epoch)
      (hincremental : c.event.incremental = false) (hidentity : c.event.snapshotIdentity = none)
      (hschema : c.event.schema = some schema) (htable : c.event.table = some table)
      (hordinal : c.event.snapshotOrdinal = some ordinal) :
      HasFacts (.snapshotRow epoch schema table ordinal)

end Claimed

/-- The pairs of events that the identities do not tell apart: snapshot rows of one epoch and
ordinal whose tables have the same joined name, and messages outside transactions of which one has
no position of its own and takes that of its commit. -/
def Confusable (c c' : Claimed C V) : SourceFacts → SourceFacts → Prop
  | .snapshotRow epoch schema table ordinal, .snapshotRow epoch' schema' table' ordinal' =>
    epoch = epoch' ∧ ordinal = ordinal' ∧ schema ++ "." ++ table = schema' ++ "." ++ table'
  | .message cluster timeline position, .sequencedMessage cluster' timeline' _ =>
    cluster = cluster' ∧ timeline = timeline' ∧ messageCursor c'.scope c'.event = some position
  | .sequencedMessage cluster timeline _, .message cluster' timeline' position =>
    cluster = cluster' ∧ timeline = timeline' ∧ messageCursor c.scope c.event = some position
  | .sequencedMessage cluster timeline _, .sequencedMessage cluster' timeline' _ =>
    cluster = cluster' ∧ timeline = timeline' ∧
      ∃ position, messageCursor c.scope c.event = some position ∧
        messageCursor c'.scope c'.event = some position
  | _, _ => False

/-! ### The texts -/

/-- The text of a snapshot identity. -/
def snapshotText (epoch : ℕ) (name : String) (ordinal : ℕ) : String :=
  "snap:" ++ toString epoch ++ ":" ++ name ++ ":" ++ toString ordinal

/-- The parts of the other identities. -/
def Claimed.parts (c : Claimed C V) : SourceFacts → List String
  | .row cluster timeline generation txnId commitLsn order =>
    ["v2", component cluster, toString timeline, component generation, component txnId,
      toString commitLsn, toString order]
  | .transactionalMessage cluster timeline txnId order position =>
    ["message-v1", component cluster, toString timeline, "tx", component txnId, toString order,
      toString position]
  | .message cluster timeline position =>
    ["message-v1", component cluster, toString timeline, "lsn", toString position]
  | .sequencedMessage cluster timeline sequence =>
    ["message-v1", component cluster, toString timeline] ++
      match messageCursor c.scope c.event with
      | some position => ["lsn", toString position]
      | none => ["sequence", component sequence]
  | .snapshotRow .. => []

/-- The text of an identity, by its facts. -/
def Claimed.text (c : Claimed C V) : SourceFacts → String
  | .snapshotRow epoch schema table ordinal =>
    snapshotText epoch (schema ++ "." ++ table) ordinal
  | facts => dotted (c.parts facts)

theorem snapshotText_inj {epoch epoch' ordinal ordinal' : ℕ} {name name' : String}
    (h : snapshotText epoch name ordinal = snapshotText epoch' name' ordinal') :
    epoch = epoch' ∧ ordinal = ordinal' ∧ name = name' := by
  have hlist := congrArg String.toList h
  have hcolon : ":".toList = [':'] := rfl
  simp only [snapshotText, String.toList_append, hcolon, List.append_assoc,
    List.singleton_append] at hlist
  have hrest := List.append_cancel_left hlist
  obtain ⟨hepoch, hrest⟩ := append_first_inj (notMem_toString_nat (by decide) _)
    (notMem_toString_nat (by decide) _) hrest
  obtain ⟨hname, hordinal⟩ := append_last_inj (notMem_toString_nat (by decide) _)
    (notMem_toString_nat (by decide) _) hrest
  exact ⟨toString_nat_inj (String.toList_inj.1 hepoch),
    toString_nat_inj (String.toList_inj.1 hordinal), String.toList_inj.1 hname⟩

theorem startsWithSnap_snapshotText (epoch : ℕ) (name : String) (ordinal : ℕ) :
    startsWithSnap (some (snapshotText epoch name ordinal)) = true := by
  rw [startsWithSnap, List.isPrefixOf_iff_prefix]
  simp only [Option.getD_some, snapshotText, String.toList_append, List.append_assoc]
  exact List.prefix_append _ _

/-- No part contains a point. -/
theorem Claimed.point_notMem_parts (c : Claimed C V) (facts : SourceFacts) :
    ∀ part ∈ c.parts facts, '.' ∉ part.toList := by
  have hint (n : ℤ) : '.' ∉ (toString n).toList := notMem_toString_int (by decide) (by decide) n
  have hnat (n : ℕ) : '.' ∉ (toString n).toList := notMem_toString_nat (by decide) n
  have hcomponent (s : String) := point_notMem_component s
  have hmessage : '.' ∉ "message-v1".toList := by decide
  have htx : '.' ∉ "tx".toList := by decide
  have hlsn : '.' ∉ "lsn".toList := by decide
  have hsequence : '.' ∉ "sequence".toList := by decide
  cases facts with
  | row => exact point_notMem_streamParts _ _ _ _ _ _
  | transactionalMessage =>
    simp only [parts, List.forall_mem_cons, hmessage, htx, hcomponent, hint, hnat]; simp
  | message => simp only [parts, List.forall_mem_cons, hmessage, hlsn, hcomponent, hint, hnat]; simp
  | sequencedMessage =>
    simp only [parts]
    cases messageCursor c.scope c.event with
    | none =>
      simp only [List.cons_append, List.nil_append, List.forall_mem_cons, hmessage, hsequence,
        hcomponent, hint]
      simp
    | some position =>
      simp only [List.cons_append, List.nil_append, List.forall_mem_cons, hmessage, hlsn,
        hcomponent, hint, hnat]
      simp
  | snapshotRow => simp [parts]

/-- An event with complete facts is claimed under the text of its facts. -/
theorem Claimed.HasFacts.identity {c : Claimed C V} {facts : SourceFacts} (h : c.HasFacts facts)
    (digests : Digests C V) :
    ∃ identity, c.identity digests = .ok identity ∧ identity.eventId = c.text facts := by
  cases h with
  | @row cluster generation txnId timeline order commitLsn hkind hepoch hincremental hidentity
      hlineage hne =>
    have hstrong : c.lineage.strongId? =
        some (streamEventId cluster timeline generation txnId commitLsn order) := by
      rw [hlineage]
      exact if_pos hne
    obtain ⟨identity, hok, hid, _⟩ := identityFor_of_strong digests hidentity hstrong
    refine ⟨identity, ?_, hid.trans ?_⟩
    · rw [Claimed.identity, hepoch, ledgerIdentity_of_streamed digests hkind hincremental]
      exact hok
    · exact streamEventId_eq_dotted ..
  | @transactionalMessage cluster txnId timeline order position hkind htransactional hcluster
      htimeline htxn horder hposition hne =>
    have hlineage : (lineageOf c.scope c.event).cluster = some cluster ∧
        (lineageOf c.scope c.event).timeline = some timeline ∧
        (lineageOf c.scope c.event).txnId = some txnId ∧
        (lineageOf c.scope c.event).order = some order := ⟨hcluster, htimeline, htxn, horder⟩
    have hmissing : missingMessageFacts (lineageOf c.scope c.event)
        (messageCursor c.scope c.event) = [] := by
      simp [missingMessageFacts, hlineage, hposition, truthy, hne]
    obtain ⟨identity, hok, hid⟩ :=
      messageIdentityFor_of_transactional digests htransactional hmissing
    refine ⟨identity, by rw [Claimed.identity, ledgerIdentity, if_pos hkind, hok], hid.trans ?_⟩
    simp [messageId, hlineage, hposition, pyStrOf, text, parts]
  | @message cluster timeline position hkind htransactional hcluster htimeline hposition hne =>
    have hlineage : (lineageOf c.scope c.event).cluster = some cluster ∧
        (lineageOf c.scope c.event).timeline = some timeline := ⟨hcluster, htimeline⟩
    have hcursor : messageCursor c.scope c.event = some position := by
      rw [messageCursor, hposition, Option.some_or]
    obtain ⟨identity, hok, hid⟩ := messageIdentityFor_of_positioned digests htransactional
      (Or.inl (by rw [hcursor]; rfl)) (by simp [hlineage, truthy, hne]) (by simp [hlineage])
    refine ⟨identity, by rw [Claimed.identity, ledgerIdentity, if_pos hkind, hok], hid.trans ?_⟩
    simp [messageId, hlineage, hcursor, pyStrOf, text, parts]
  | @sequencedMessage cluster sequence timeline hkind htransactional hcluster htimeline hposition
      hsequence hne =>
    have hlineage : (lineageOf c.scope c.event).cluster = some cluster ∧
        (lineageOf c.scope c.event).timeline = some timeline := ⟨hcluster, htimeline⟩
    have hcluster' : truthy (lineageOf c.scope c.event).cluster = true := by
      simp [hlineage, truthy, hne]
    obtain ⟨identity, hok, hid⟩ := messageIdentityFor_of_positioned digests htransactional
      (Or.inr (by simp [hsequence, truthy, hne])) hcluster' (by simp [hlineage])
    refine ⟨identity, by rw [Claimed.identity, ledgerIdentity, if_pos hkind, hok], hid.trans ?_⟩
    cases hcursor : messageCursor c.scope c.event with
    | none => simp [messageId, hlineage, hsequence, pyStrOf, text, parts, hcursor]
    | some position => simp [messageId, hlineage, pyStrOf, text, parts, hcursor]
  | @snapshotRow epoch ordinal schema table hkind hepoch hincremental hidentity hschema htable
      hordinal =>
    have hid : snapshotEventId epoch c.event =
        .ok (snapshotText epoch (schema ++ "." ++ table) ordinal) := by
      simp [snapshotEventId, hincremental, hordinal, hschema, htable, pyStr, snapshotText,
        String.append_assoc]
    obtain ⟨identity, hok, hid'⟩ := identityFor_of_snapshot digests
      { c.scope with relationGeneration := relationGenerationFor c.view c.event }
      hidentity (startsWithSnap_snapshotText epoch (schema ++ "." ++ table) ordinal)
    refine ⟨identity, ?_, hid'⟩
    rw [Claimed.identity, hepoch, ledgerIdentity, if_neg hkind]
    simp only [hid, bind, Except.bind]
    exact hok

/-- Texts joined with points compare part by part. -/
theorem dotted_eq_iff {c c' : Claimed C V} {facts facts' : SourceFacts}
    (hne : c.parts facts ≠ []) (hne' : c'.parts facts' ≠ []) :
    dotted (c.parts facts) = dotted (c'.parts facts') ↔ c.parts facts = c'.parts facts' :=
  ⟨intercalate_inj (c.point_notMem_parts facts) (c'.point_notMem_parts facts') hne hne',
    fun h => by rw [h]⟩

/-- A joined text that begins with another word is no snapshot identity. -/
theorem dotted_ne_snapshotText {parts : List String} {word : String} {epoch ordinal : ℕ}
    {name : String} (hword : word.toList.head? ≠ some 's') (hne : word.toList ≠ []) :
    dotted (word :: parts) ≠ snapshotText epoch name ordinal := by
  intro h
  have hhead := congrArg (fun text => text.toList.head?) h
  have hsnap : (snapshotText epoch name ordinal).toList.head? = some 's' := by
    simp [snapshotText, String.toList_append]
  have hdotted : (dotted (word :: parts)).toList.head? = word.toList.head? := by
    cases parts with
    | nil => simp [dotted]
    | cons part parts =>
      rw [dotted, String.intercalate_cons_cons, String.append_assoc, String.toList_append,
        List.head?_append_of_ne_nil _ hne]
  rw [hsnap, hdotted] at hhead
  exact hword hhead

@[simp] theorem component_inj_iff {x y : String} : component x = component y ↔ x = y :=
  ⟨component_inj, fun h => by rw [h]⟩

/-- The parts of different facts are equal for confusable events only. -/
theorem parts_eq_iff {c c' : Claimed C V} {facts facts' : SourceFacts} (h : c.HasFacts facts)
    (h' : c'.HasFacts facts') (hne : facts ≠ facts') (hparts : c.parts facts ≠ [])
    (hparts' : c'.parts facts' ≠ []) :
    c.parts facts = c'.parts facts' ↔ Confusable c c' facts facts' := by
  have hint (n m : ℤ) : toString n = toString m ↔ n = m := ⟨toString_int_inj, fun h => by rw [h]⟩
  have hnat (n m : ℕ) : toString n = toString m ↔ n = m := ⟨toString_nat_inj, fun h => by rw [h]⟩
  cases h with
  | row =>
    cases h' with
    | row =>
      simp only [Claimed.parts, List.cons.injEq, component_inj_iff, hint, hnat, and_true, true_and,
        Confusable, iff_false]
      rintro ⟨rfl, rfl, rfl, rfl, rfl, rfl⟩
      exact hne rfl
    | snapshotRow => exact absurd rfl hparts'
    | _ => simp [Claimed.parts, Confusable]
  | transactionalMessage =>
    cases h' with
    | transactionalMessage =>
      simp only [Claimed.parts, List.cons.injEq, component_inj_iff, hint, hnat, and_true, true_and,
        Confusable, iff_false]
      rintro ⟨rfl, rfl, rfl, rfl, rfl⟩
      exact hne rfl
    | snapshotRow => exact absurd rfl hparts'
    | sequencedMessage =>
      cases hcursor : messageCursor c'.scope c'.event with
      | none => simp [Claimed.parts, Confusable, hcursor]
      | some position => simp [Claimed.parts, Confusable, hcursor]
    | _ => simp [Claimed.parts, Confusable]
  | @message cluster timeline position =>
    cases h' with
    | message =>
      simp only [Claimed.parts, List.cons.injEq, component_inj_iff, hint, hnat, and_true, true_and,
        Confusable, iff_false]
      rintro ⟨rfl, rfl, rfl⟩
      exact hne rfl
    | snapshotRow => exact absurd rfl hparts'
    | sequencedMessage =>
      cases hcursor : messageCursor c'.scope c'.event with
      | none => simp [Claimed.parts, Confusable, hcursor]
      | some position' =>
        simp only [Claimed.parts, hcursor, List.cons_append, List.nil_append, List.cons.injEq,
          component_inj_iff, hint, hnat, and_true, true_and, Confusable, Option.some.injEq,
          eq_comm (a := position)]
    | _ => simp [Claimed.parts, Confusable]
  | sequencedMessage =>
    cases hcursor : messageCursor c.scope c.event with
    | none =>
      cases h' with
      | sequencedMessage =>
        cases hcursor' : messageCursor c'.scope c'.event with
        | none =>
          simp only [Claimed.parts, hcursor, hcursor', List.cons_append, List.nil_append,
            List.cons.injEq, component_inj_iff, hint, and_true, true_and, Confusable]
          refine ⟨?_, ?_⟩
          · rintro ⟨rfl, rfl, rfl⟩
            exact absurd rfl hne
          · rintro ⟨_, _, position, hposition, _⟩
            exact absurd hposition (by simp)
        | some position => simp [Claimed.parts, Confusable, hcursor, hcursor']
      | snapshotRow => exact absurd rfl hparts'
      | _ => simp [Claimed.parts, Confusable, hcursor]
    | some position =>
      cases h' with
      | sequencedMessage =>
        cases hcursor' : messageCursor c'.scope c'.event with
        | none => simp [Claimed.parts, Confusable, hcursor, hcursor']
        | some position' =>
          simp only [Claimed.parts, hcursor, hcursor', List.cons_append, List.nil_append,
            List.cons.injEq, component_inj_iff, hint, hnat, and_true, true_and, Confusable,
            Option.some.injEq, exists_eq_left', eq_comm (b := position)]
      | @message cluster' timeline' position' =>
        simp only [Claimed.parts, hcursor, List.cons_append, List.nil_append, List.cons.injEq,
          component_inj_iff, hint, hnat, and_true, true_and, Confusable, Option.some.injEq]
      | snapshotRow => exact absurd rfl hparts'
      | _ => simp [Claimed.parts, Confusable, hcursor]
  | snapshotRow => exact absurd rfl hparts

/-- The texts of different facts are equal for confusable events only. -/
theorem text_eq_iff {c c' : Claimed C V} {facts facts' : SourceFacts} (h : c.HasFacts facts)
    (h' : c'.HasFacts facts') (hne : facts ≠ facts') :
    c.text facts = c'.text facts' ↔ Confusable c c' facts facts' := by
  have hword (d : Claimed C V) (f : SourceFacts) : (∃ epoch schema table ordinal,
      f = .snapshotRow epoch schema table ordinal) ∨ (d.text f = dotted (d.parts f) ∧
        ∃ word rest, d.parts f = word :: rest ∧ (word = "v2" ∨ word = "message-v1")) := by
    cases f with
    | snapshotRow epoch schema table ordinal => exact Or.inl ⟨_, _, _, _, rfl⟩
    | row => exact Or.inr ⟨rfl, "v2", _, rfl, Or.inl rfl⟩
    | _ => exact Or.inr ⟨rfl, "message-v1", _, rfl, Or.inr rfl⟩
  have hsnap (word : String) (rest : List String) (hw : word = "v2" ∨ word = "message-v1")
      (epoch ordinal : ℕ) (name : String) :
      dotted (word :: rest) ≠ snapshotText epoch name ordinal := by
    rcases hw with rfl | rfl <;> exact dotted_ne_snapshotText (by decide) (by decide)
  rcases hword c facts with ⟨epoch, schema, table, ordinal, rfl⟩ | ⟨htext, word, rest, hparts, hw⟩
  · rcases hword c' facts' with ⟨epoch', schema', table', ordinal', rfl⟩ |
      ⟨htext', word', rest', hparts', hw'⟩
    · refine ⟨snapshotText_inj, ?_⟩
      rintro ⟨rfl, rfl, hname⟩
      simp only [Claimed.text, hname]
    · rw [htext', hparts']
      refine ⟨fun he => absurd he.symm (hsnap word' rest' hw' _ _ _), fun hc => ?_⟩
      cases facts' with
      | snapshotRow => simp [Claimed.parts] at hparts'
      | _ => exact hc.elim
  · rcases hword c' facts' with ⟨epoch', schema', table', ordinal', rfl⟩ |
      ⟨htext', word', rest', hparts', hw'⟩
    · rw [htext, hparts]
      refine ⟨fun he => absurd he (hsnap word rest hw _ _ _), fun hc => ?_⟩
      cases facts with
      | snapshotRow => simp [Claimed.parts] at hparts
      | _ => exact hc.elim
    · rw [htext, htext', dotted_eq_iff (by simp [hparts]) (by simp [hparts'])]
      exact parts_eq_iff h h' hne (by simp [hparts]) (by simp [hparts'])

/-- **Identities never collide but for confusable events.** Two events whose complete facts differ
are claimed under different identities exactly when they are not confusable. -/
theorem eventId_ne_iff (digests : Digests C V) {c c' : Claimed C V} {facts facts' : SourceFacts}
    (h : c.HasFacts facts) (h' : c'.HasFacts facts') (hne : facts ≠ facts') :
    ∃ identity identity', c.identity digests = .ok identity ∧
      c'.identity digests = .ok identity' ∧
      (identity.eventId ≠ identity'.eventId ↔ ¬ Confusable c c' facts facts') := by
  obtain ⟨identity, hok, hid⟩ := h.identity digests
  obtain ⟨identity', hok', hid'⟩ := h'.identity digests
  refine ⟨identity, identity', hok, hok', not_congr ?_⟩
  rw [hid, hid']
  exact text_eq_iff h h' hne

namespace Accounts

/-- A row of the first snapshot of a table. -/
def imageRow (schema table : String) : Claimed String String where
  scope := {}
  epoch := some 1
  event :=
    { kind := .snapshot, snapshot := some .true, schema := some schema, table := some table
      snapshotOrdinal := some 1 }

theorem imageRow_hasFacts (schema table : String) :
    (imageRow schema table).HasFacts (.snapshotRow 1 schema table 1) :=
  .snapshotRow (by simp [imageRow]) rfl rfl rfl rfl rfl rfl

/-- Digests of any kind. -/
def noDigests : Digests String String := ⟨fun _ => "", fun _ => ""⟩

theorem eventId_ne_of_tables : ∃ identity identity',
    (imageRow "public" "accounts").identity noDigests = .ok identity ∧
      (imageRow "public" "orders").identity noDigests = .ok identity' ∧
      (identity.eventId ≠ identity'.eventId ↔
        ¬ Confusable (imageRow "public" "accounts") (imageRow "public" "orders")
          (.snapshotRow 1 "public" "accounts" 1) (.snapshotRow 1 "public" "orders" 1)) :=
  eventId_ne_iff noDigests (imageRow_hasFacts _ _) (imageRow_hasFacts _ _) (by decide)

/-- A message outside transactions with a sequence and no position of its own. The planner takes `0`
for the position of its unit. -/
def sequencedPoint (sequence : String) : Claimed String String where
  scope := { sourceClusterId := some "c1", sourceTimeline := some 1, commitLsn := some 0 }
  event :=
    { kind := .message, messageTransactional := some false, sourceSequence := some sequence }

theorem sequencedPoint_hasFacts {sequence : String} (h : sequence ≠ "") :
    (sequencedPoint sequence).HasFacts (.sequencedMessage "c1" 1 sequence) :=
  .sequencedMessage rfl rfl rfl rfl rfl rfl ⟨by decide, h⟩

/-- Two such messages with different sequences have one identity. -/
theorem not_eventId_ne_of_points : ¬ ∀ c c' : Claimed String String, ∀ facts facts' : SourceFacts,
    c.HasFacts facts → c'.HasFacts facts' → facts ≠ facts' →
    ∀ identity identity', c.identity noDigests = .ok identity →
      c'.identity noDigests = .ok identity' → identity.eventId ≠ identity'.eventId := by
  intro h
  have hfirst : (sequencedPoint "[null,\"200\"]").HasFacts _ :=
    sequencedPoint_hasFacts (by decide)
  have hsecond : (sequencedPoint "[null,\"300\"]").HasFacts _ :=
    sequencedPoint_hasFacts (by decide)
  obtain ⟨identity, hok, htext⟩ := hfirst.identity noDigests
  obtain ⟨identity', hok', htext'⟩ := hsecond.identity noDigests
  refine h _ _ _ _ hfirst hsecond (by decide) _ _ hok hok' ?_
  rw [htext, htext']
  exact (text_eq_iff hfirst hsecond (by decide)).2 ⟨rfl, rfl, 0, rfl, rfl⟩

end Accounts

end CdcFlight
