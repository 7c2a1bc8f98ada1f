import CdcFlight.Assembler.Units

/-!
# The transaction assembler

`assembler.TransactionAssembler`: the state machine that turns a stream of records into whole
units. A transaction is emitted at its END, after its totals, its ordinals and its tables have been
proven; snapshot rows are emitted in chunks; a record of its own kind is a unit of its own, or is
carried by the transaction that is open.

## Main definitions

* `CdcFlight.feed`, `CdcFlight.feedSnapshotBoundary`: the two entry points.
* `CdcFlight.verifyComplete`: the boundary rule.
-/

namespace CdcFlight

open Lib

variable {C V : Type}

/-! ### Units -/

/-- `_control_unit`. -/
def controlUnit (rec : PendingRecord C V) : CompleteUnit C V where
  kind := .control
  records := [rec]
  txnId := rec.txnId
  lastLsn := orZero rec.lsn
  commitLsn := rec.lsn
  nbytes := rec.nbytes
  admissionRefusals := rec.admissionRefusal.toList

/-- `_message_unit`: a non-transactional message is its own source event. -/
def messageUnit (rec : PendingRecord C V) : CompleteUnit C V where
  kind := .message
  events := [{ rec with messageTransactional := some false }]
  records := [{ rec with messageTransactional := some false }]
  lastLsn := orZero rec.lsn
  commitLsn := rec.lsn
  nbytes := rec.nbytes
  deliveryEvents := some 0
  admissionRefusals := rec.admissionRefusal.toList

/-- The unit `_close_chunk` emits. -/
def OpenChunk.unit (chunk : OpenChunk C V) (lastForTable : Bool) : CompleteUnit C V where
  kind := .snapshotChunk
  events := chunk.events
  records := chunk.records
  schema := chunk.schema
  table := chunk.table
  touchedTables := chunk.touchedTables
  lastLsn := (chunk.events.map fun e => orZero e.lsn).foldl max 0
  nbytes := chunk.nbytes
  snapshotLastForTable := lastForTable && !chunk.incremental
  snapshotLast := chunk.sawLast
  spilled := chunk.spilled ≠ 0
  spilledEvents := chunk.spilled
  spillUnitSeq := chunk.spillUnitSeq
  incremental := chunk.incremental
  deliveryEvents := some chunk.deliveryEvents
  admissionRefusals := chunk.admissionRefusals

/-- The commit position of a transaction: `rec.lsn or txn.last_lsn`. -/
def OpenTxn.commitLsn (txn : OpenTxn C V) (rec : PendingRecord C V) : ℕ :=
  if orZero rec.lsn ≠ 0 then orZero rec.lsn else txn.lastLsn

/-- The transaction after a record that it carries without counting it. -/
def OpenTxn.carry (cfg : AssemblerConfig C V) (txn : OpenTxn C V) (rec : PendingRecord C V) :
    OpenTxn C V :=
  { txn with records := cfg.retain txn.records rec, nbytes := txn.nbytes + rec.nbytes }

/-- The unit `_feed_end` emits. The commit position stands on END and is copied to the events. -/
def OpenTxn.unit (txn : OpenTxn C V) (rec : PendingRecord C V) : CompleteUnit C V where
  kind := .txn
  events := txn.events.map fun e => { e with commitLsn := some (txn.commitLsn rec) }
  records := txn.records
  txnId := some txn.txnId
  commitLsn := some (txn.commitLsn rec)
  lastLsn := (txn.events.map fun e => orZero e.lsn).foldl max (txn.commitLsn rec)
  nbytes := txn.nbytes
  touchedTables := txn.touchedTables
  spilled := txn.spilled ≠ 0
  spilledEvents := txn.spilled
  spillUnitSeq := txn.spillUnitSeq
  discardedEvents := txn.count - txn.events.length - txn.spilled
  deliveryEvents := some txn.deliveryEvents
  admissionRefusals := txn.admissionRefusals

/-! ### Spilling -/

/-- The open transaction after its events were staged. -/
def OpenTxn.staged (txn : OpenTxn C V) (seq : ℕ) : OpenTxn C V :=
  { txn with
    spilled := txn.spilled + txn.events.length
    spillUnitSeq := some seq
    events := []
    memBytes := 0 }

/-- The open chunk after its events were staged. -/
def OpenChunk.staged (chunk : OpenChunk C V) (seq : ℕ) : OpenChunk C V :=
  { chunk with
    spilled := chunk.spilled + chunk.events.length
    spillUnitSeq := some seq
    events := []
    memBytes := 0 }

/-- `_maybe_spill_txn`. A callback that raises leaves the seq on the unit and its events in
memory. -/
def maybeSpillTxn (cfg : AssemblerConfig C V) : Assemble C V Unit := do
  let s ← get
  match cfg.onSpill, s.txn with
  | some onSpill, some txn =>
    if cfg.overflows txn.events txn.memBytes then
      let seq := s.seqFor txn.spillUnitSeq
      let call : SpillCall C V := ⟨seq, txn.events, none⟩
      let reserved := s.reserveSeq txn.spillUnitSeq
      match onSpill call with
      | some refusal =>
        set (reserved.setTxn (some { txn with spillUnitSeq := some seq }))
        throw refusal
      | none => set ((reserved.noteCall call).setTxn (some (txn.staged seq)))
  | _, _ => pure ()

/-- `_maybe_spill_chunk`. -/
def maybeSpillChunk (cfg : AssemblerConfig C V) : Assemble C V Unit := do
  let s ← get
  match cfg.onSpill, s.chunk with
  | some onSpill, some chunk =>
    if cfg.overflows chunk.events chunk.memBytes then
      let seq := s.seqFor chunk.spillUnitSeq
      let call : SpillCall C V := ⟨seq, chunk.events, some (chunk.schema, chunk.table)⟩
      let reserved := s.reserveSeq chunk.spillUnitSeq
      match onSpill call with
      | some refusal =>
        set (reserved.setChunk (some { chunk with spillUnitSeq := some seq }))
        throw refusal
      | none => set ((reserved.noteCall call).setChunk (some (chunk.staged seq)))
  | _, _ => pure ()

/-! ### Snapshot rows -/

/-- `_close_chunk`. -/
def closeChunk (lastForTable : Bool) : Assemble C V (List (CompleteUnit C V)) := do
  let s ← get
  match s.chunk with
  | none => return []
  | some chunk =>
    set (s.setChunk none)
    return [chunk.unit lastForTable]

/-- `rec.snapshot == SNAPSHOT_INCREMENTAL`. -/
def PendingRecord.isIncremental (rec : PendingRecord C V) : Bool :=
  rec.snapshot = some .incremental

/-- The table a snapshot ordinal counts for: `rec.qualified_table or ""`. -/
def PendingRecord.ordinalKey (rec : PendingRecord C V) : String := rec.qualifiedTable.getD ""

/-- The arrival ordinal of the next snapshot row of a table. -/
def Assembler.nextOrdinal (s : Assembler C V) (key : String) : ℕ :=
  (s.snapshotOrdinals.get? key).getD 0 + 1

/-- `set.add` of the qualified table, when it has one. -/
def touch (tables : Finset String) (rec : PendingRecord C V) : Finset String :=
  if truthy rec.qualifiedTable then insert rec.ordinalKey tables else tables

/-- The open chunk after one more row. -/
def OpenChunk.push (cfg : AssemblerConfig C V) (chunk : OpenChunk C V)
    (rec : PendingRecord C V) : OpenChunk C V :=
  { chunk with
    touchedTables := touch chunk.touchedTables rec
    events := chunk.events ++ [rec]
    admissionRefusals := chunk.admissionRefusals ++ rec.admissionRefusal.toList
    count := chunk.count + 1
    deliveryEvents := chunk.deliveryEvents + if rec.isDeliveryData then 1 else 0
    sawLast := chunk.sawLast || rec.snapshot = some .last
    records := cfg.retain chunk.records rec
    nbytes := chunk.nbytes + rec.nbytes
    memBytes := chunk.memBytes + rec.nbytes }

/-- The chunk a row joins: the one that is open, or a new one of the row's relation. -/
def Assembler.chunkFor (s : Assembler C V) (rec : PendingRecord C V) : OpenChunk C V :=
  s.chunk.getD { schema := rec.schema, table := rec.table, incremental := rec.isIncremental }

/-- A snapshot row joins the chunk; its ordinal is its arrival order within its table. -/
def Assembler.enterChunk (cfg : AssemblerConfig C V) (rec : PendingRecord C V)
    (s : Assembler C V) : Assembler C V :=
  let ordinal := s.nextOrdinal rec.ordinalKey
  { s with
    snapshotOrdinals := s.snapshotOrdinals.set rec.ordinalKey ordinal
    chunk := some ((s.chunkFor rec).push cfg { rec with snapshotOrdinal := some ordinal }) }

/-- The open chunk has reached a chunk limit. -/
def AssemblerConfig.chunkFull (cfg : AssemblerConfig C V) (chunk : OpenChunk C V) : Bool :=
  cfg.snapshotChunkEvents ≤ chunk.count || cfg.snapshotChunkBytes ≤ chunk.nbytes

/-- The chunk is of another relation than the row. -/
def OpenChunk.otherTable (chunk : OpenChunk C V) (rec : PendingRecord C V) : Bool :=
  chunk.table ≠ rec.table || chunk.schema ≠ rec.schema

/-- The chunk that a row cannot join is closed: one of another relation ends its table, one of
the other snapshot mode does not. -/
def makeRoom (rec : PendingRecord C V) : Assemble C V (List (CompleteUnit C V)) := do
  let s ← get
  match s.chunk with
  | none => return []
  | some chunk =>
    if chunk.otherTable rec then closeChunk true
    else if chunk.incremental ≠ rec.isIncremental then closeChunk false
    else return []

/-- `_feed_snapshot`. -/
def feedSnapshot (cfg : AssemblerConfig C V) (rec : PendingRecord C V) :
    Assemble C V (List (CompleteUnit C V)) := do
  let s ← get
  if s.txn.isSome then
    assemblyError "snapshot record arrived while a streaming transaction is open"
  else if rec.isIncremental && !cfg.incrementalEnabled then
    assemblyError ("record carries source.snapshot='incremental'. Incremental snapshots are " ++
      "admitted only through the stock incremental backfill route; the ordinary " ++
      "initial-snapshot assembler refuses them.")
  else
    let before ← makeRoom rec
    modify (Assembler.enterChunk cfg rec)
    maybeSpillChunk cfg
    let s ← get
    let tableLast := rec.snapshot.any SnapshotMark.closesTable
    if tableLast || s.chunk.any cfg.chunkFull then
      let after ← closeChunk tableLast
      return before ++ after
    else return before

/-- `_flush_deferred_snapshots`, over the queued records: each leaves the queue before it is
fed. -/
def flushDeferredSnapshots (cfg : AssemblerConfig C V) :
    List (PendingRecord C V) → Assemble C V (List (CompleteUnit C V))
  | [] => return []
  | rec :: rest => do
    modify (·.setDeferred rest)
    let units ← feedSnapshot cfg rec
    let more ← flushDeferredSnapshots cfg rest
    return units ++ more

/-! ### Streaming -/

/-- `_feed_begin`. -/
def feedBegin (cfg : AssemblerConfig C V) (rec : PendingRecord C V) :
    Assemble C V (List (CompleteUnit C V)) := do
  let s ← get
  match s.txn with
  | some txn =>
    assemblyError ("Debezium emitted BEGIN for transaction " ++ pyStr rec.txnId ++ " while " ++
      "transaction " ++ txn.txnId ++ " is still open (" ++ toString txn.count ++
      " events buffered). Transaction metadata is not self-consistent, so a commit group could " ++
      "contain part of a Postgres transaction (ADR 0001 §3.2).")
  | none =>
    match rec.txnId with
    | none => assemblyError "BEGIN marker without a transaction id"
    | some txnId =>
      set (s.setTxn (some
        { txnId, beginSeen := true, records := cfg.retain [] rec, nbytes := rec.nbytes }))
      return []

/-- `_validate_ordinal`. -/
def validateOrdinal (rec : PendingRecord C V) : Assemble C V ℤ :=
  match rec.totalOrder with
  | none =>
    assemblyError ("streaming event on " ++ rec.topic ++ " (txn " ++ pyStr rec.txnId ++
      ") carries no transaction.total_order. It is part of `cdcf_event_id`, so without it two " ++
      "events of one transaction share an identity and one is lost (ADR 0001 §6).")
  | some .unparsable => assemblyError "transaction.total_order is not an integer"
  | some (.int order) =>
    if order < 1 then
      assemblyError ("transaction.total_order must be a 1-based ordinal, got " ++ toString order)
    else return order

/-- The transaction a counted event belongs to: the one that is open, or one that opens without a
BEGIN. -/
def joinTxn (txnId : String) (changed : OpenTxn C V → String) : Assemble C V (OpenTxn C V) := do
  let s ← get
  match s.txn with
  | none =>
    let txn : OpenTxn C V := { txnId, beginSeen := false }
    set { s with implicitTxnOpens := s.implicitTxnOpens + 1, txn := some txn }
    return txn
  | some txn => if txn.txnId ≠ txnId then assemblyError (changed txn) else return txn

/-- What a data event and a message have in common on entering a transaction. -/
def OpenTxn.enter (cfg : AssemblerConfig C V) (txn : OpenTxn C V) (rec : PendingRecord C V)
    (order : ℤ) : OpenTxn C V :=
  { txn with
    orders := insert order txn.orders
    count := txn.count + 1
    admissionRefusals := txn.admissionRefusals ++ rec.admissionRefusal.toList
    records := cfg.retain txn.records rec
    nbytes := txn.nbytes + rec.nbytes
    lastLsn := max txn.lastLsn (orZero rec.lsn)
    events := if cfg.discardStreaming then txn.events else txn.events ++ [rec]
    memBytes := if cfg.discardStreaming then txn.memBytes else txn.memBytes + rec.nbytes }

/-- The counters of a data event. -/
def OpenTxn.countData (txn : OpenTxn C V) (rec : PendingRecord C V) : OpenTxn C V :=
  { txn with
    deliveryEvents := txn.deliveryEvents + if rec.isDeliveryData then 1 else 0
    perTable := if truthy rec.qualifiedTable then
        txn.perTable.set rec.ordinalKey ((txn.perTable.get? rec.ordinalKey).getD 0 + 1)
      else txn.perTable
    touchedTables := touch txn.touchedTables rec }

/-- The counter of a message. -/
def OpenTxn.countMessage (txn : OpenTxn C V) : OpenTxn C V :=
  { txn with messageCount := txn.messageCount + 1 }

/-- A counted event enters the transaction: a repeated ordinal is refused, else the event is
counted and, unless the stream is discarded, retained and maybe spilled. -/
def enterTxn (cfg : AssemblerConfig C V) (txn : OpenTxn C V) (order : ℤ) (twice : String)
    (admitted : OpenTxn C V) : Assemble C V (List (CompleteUnit C V)) := do
  if order ∈ txn.orders then assemblyError twice
  else
    modify (·.setTxn (some admitted))
    if cfg.discardStreaming then return []
    else
      maybeSpillTxn cfg
      return []

/-- `_feed_data`. -/
def feedData (cfg : AssemblerConfig C V) (rec : PendingRecord C V) :
    Assemble C V (List (CompleteUnit C V)) :=
  match rec.txnId with
  | none =>
    assemblyError ("streaming data event on " ++ rec.topic ++ " carries no transaction id; " ++
      "`provide.transaction.metadata=true` is mandatory (ADR 0001 §3.2)")
  | some txnId => do
    let order ← validateOrdinal rec
    let txn ← joinTxn txnId fun txn =>
      "transaction id changed from " ++ txn.txnId ++ " to " ++ txnId ++
      " without an END marker (" ++ toString txn.events.length ++ " events buffered). That is a " ++
      "fatal consistency error, not a boundary (ADR 0001 §3.2)."
    enterTxn cfg txn order
      ("transaction " ++ txnId ++ " declared total_order " ++ toString order ++ " twice. Two " ++
        "accepted events would then share one `cdcf_event_id` and one of them would be " ++
        "silently dropped (ADR 0001 §6).")
      ((txn.enter cfg rec order).countData rec)

/-- `_feed_transactional_message`. -/
def feedTransactionalMessage (cfg : AssemblerConfig C V) (rec : PendingRecord C V) :
    Assemble C V (List (CompleteUnit C V)) :=
  match rec.txnId with
  | none =>
    assemblyError ("transactional logical message on " ++ rec.topic ++ " has no transaction id")
  | some txnId => do
    let order ← validateOrdinal rec
    let txn ← joinTxn txnId fun txn =>
      "transaction id changed from " ++ txn.txnId ++ " to " ++ txnId ++
      " without an END marker while admitting a logical message"
    enterTxn cfg txn order
      ("transaction " ++ txnId ++ " declared total_order " ++ toString order ++
        " twice (logical-decoding message)")
      (txn.enter cfg { rec with messageTransactional := some true } order).countMessage

/-- Whether a message belongs to a transaction: what it says, else what its metadata says. -/
def PendingRecord.transactional (rec : PendingRecord C V) : Bool :=
  rec.messageTransactional.getD (rec.txnId.isSome || rec.totalOrder.isSome)

/-- `_feed_control`. -/
def feedControl (cfg : AssemblerConfig C V) (rec : PendingRecord C V) :
    Assemble C V (List (CompleteUnit C V)) := do
  if rec.kind = .message && rec.transactional then feedTransactionalMessage cfg rec
  else
    let s ← get
    match s.txn with
    | some txn =>
      if rec.kind = .message then
        assemblyError ("non-transactional logical message on " ++ rec.topic ++ " arrived while " ++
          "transaction " ++ txn.txnId ++ " is open; it cannot be attached to adjacent " ++
          "PostgreSQL DML")
      else
        -- a control record advances no offset past a half-buffered transaction
        set (s.setTxn (some (txn.carry cfg rec)))
        return []
    | none => return [if rec.kind = .message then messageUnit rec else controlUnit rec]

/-! ### The boundary rule -/

/-- One `data_collections` entry against the observed count: equal, or within the allowance for
messages, which use it up. -/
def checkDeclared (txn : OpenTxn C V) (txnId : Option String) (allowance : ℤ)
    (entry : String × ℤ) : Except Refusal ℤ :=
  let actual : ℕ := (txn.perTable.get? entry.1).getD 0
  if (actual : ℤ) = entry.2 then pure allowance
  else if actual = 0 ∧ entry.2 ≤ allowance then pure (allowance - entry.2)
  else throw {
    errorClass := .transactionAssemblyError
    message := "transaction " ++ pyStr txnId ++ ": END declares " ++ toString entry.2 ++
      " events for " ++ entry.1 ++ ", " ++ toString actual ++
      " were buffered (ADR 0001 §3.2)" }

/-- The first observed table that END does not declare. -/
def undeclared (txn : OpenTxn C V) (rec : PendingRecord C V) : Option (String × ℕ) :=
  txn.perTable.items.find? fun entry => !rec.txnDataCollections.contains entry.1

/-- `set(range(1, n + 1))`. -/
def ordinalsTo (n : ℕ) : Finset ℤ := ((List.range n).map fun i => Int.ofNat (i + 1)).toFinset

theorem mem_ordinalsTo {n : ℕ} {k : ℤ} : k ∈ ordinalsTo n ↔ 1 ≤ k ∧ k ≤ n := by
  simp only [ordinalsTo, List.mem_toFinset, List.mem_map, List.mem_range]
  constructor
  · rintro ⟨i, hi, rfl⟩
    exact ⟨Int.ofNat_le.2 (Nat.succ_pos i), Int.ofNat_le.2 hi⟩
  · rintro ⟨hone, hle⟩
    refine ⟨(k - 1).toNat, by omega, ?_⟩
    rw [Int.ofNat_eq_natCast]
    omega

/-- `_verify_complete`. -/
def verifyComplete (txn : OpenTxn C V) (rec : PendingRecord C V) : Except Refusal Unit :=
  let refuse (message : String) : Except Refusal Unit :=
    throw { errorClass := .transactionAssemblyError, message := message }
  let label := "transaction " ++ pyStr rec.txnId ++ ": "
  match rec.txnEventCount with
  | none => refuse (label ++ "END marker carries no event_count, so the " ++ toString txn.count ++
      " events buffered cannot be proven to be the whole transaction. A commit group may only " ++
      "contain transactions we can prove whole (ADR 0001 §3.2).")
  | some .unparsable => refuse (label ++ "END event_count is not an integer")
  | some (.int declared) =>
    let expected := ordinalsTo txn.count
    if declared ≠ txn.count then
      refuse (label ++ "END declares " ++ toString declared ++ " events, " ++
        toString txn.count ++ " were buffered. A commit group may only contain transactions we " ++
        "can prove whole (ADR 0001 §3.2).")
    else if txn.orders ≠ expected then
      refuse (label ++ "END declares " ++ toString declared ++ " events but the observed " ++
        "transaction.total_order ordinals are " ++ toString (txn.orders.sort (· ≤ ·)) ++
        " (missing " ++ toString ((expected \ txn.orders).sort (· ≤ ·)) ++ ", unexpected " ++
        toString ((txn.orders \ expected).sort (· ≤ ·)) ++ "). The ordinal set implied by " ++
        "event_count is 1..N (ADR 0001 §6).")
    else do
      let _ ← rec.txnDataCollections.items.foldlM (checkDeclared txn rec.txnId)
        (txn.messageCount : ℤ)
      match undeclared txn rec with
      | none => pure ()
      | some entry => refuse (label ++ toString entry.2 ++ " events were buffered for " ++
          entry.1 ++ ", which the END marker never declared. The comparison runs in both " ++
          "directions, or a misrouted event is invisible (ADR 0001 §3.2).")

/-- `_feed_end`: the transaction is closed before it is verified. -/
def feedEnd (cfg : AssemblerConfig C V) (rec : PendingRecord C V) :
    Assemble C V (List (CompleteUnit C V)) := do
  let s ← get
  match s.txn with
  | none =>
    set { s with orphanEndMarkers := s.orphanEndMarkers + 1 }
    return [controlUnit rec]
  | some txn =>
    if some txn.txnId ≠ rec.txnId then
      assemblyError ("END marker for transaction " ++ pyStr rec.txnId ++ " while transaction " ++
        txn.txnId ++ " is open (ADR 0001 §3.2)")
    else
      set (s.setTxn none)
      match verifyComplete (txn.carry cfg rec) rec with
      | .error refusal => throw refusal
      | .ok _ => return [(txn.carry cfg rec).unit rec]

/-! ### The entry points -/

/-- The dispatch of `feed` on the kind of a record that is no snapshot row. -/
def feedStream (cfg : AssemblerConfig C V) (rec : PendingRecord C V) :
    Assemble C V (List (CompleteUnit C V)) :=
  match rec.kind with
  | .txnBegin => feedBegin cfg rec
  | .txnEnd => feedEnd cfg rec
  | .data => feedData cfg rec
  | .truncate => feedData cfg rec
  | _ => feedControl cfg rec

/-- The deferred snapshot rows are released once no transaction is open. -/
def releaseDeferred (cfg : AssemblerConfig C V) : Assemble C V (List (CompleteUnit C V)) := do
  let s ← get
  if s.txn.isNone then flushDeferredSnapshots cfg s.deferredSnapshots else return []

/-- `feed`. A record that is no snapshot row first ends the chunk that is open. -/
def feed (cfg : AssemblerConfig C V) (rec : PendingRecord C V) :
    Assemble C V (List (CompleteUnit C V)) := do
  if rec.kind = .snapshot then
    let s ← get
    if s.txn.isSome then
      if !rec.isIncremental || !cfg.incrementalEnabled then
        assemblyError "snapshot record arrived while a streaming transaction is open"
      else
        set (s.setDeferred (s.deferredSnapshots ++ [rec]))
        return []
    else
      let units ← feedSnapshot cfg rec
      modify (·.countUnits units.length)
      return units
  else
    let closed ← closeChunk true
    let units ← feedStream cfg rec
    let released ← releaseDeferred cfg
    let all := closed ++ units ++ released
    modify (·.countUnits all.length)
    return all

/-- `feed_snapshot_boundary`. -/
def feedSnapshotBoundary (rec : PendingRecord C V) : Assemble C V (List (CompleteUnit C V)) := do
  let s ← get
  if rec.kind ≠ .snapshotBoundary ∨ rec.raw.isSome then
    assemblyError ("snapshot boundary must be a typed record without an acknowledgeable " ++
      "Debezium handle")
  else if s.txn.isSome then
    assemblyError "snapshot boundary arrived while a streaming transaction is open"
  else
    let closed ← closeChunk true
    let units := closed ++ [controlUnit rec]
    modify (·.countUnits units.length)
    return units

/-- `discard_open_unit`: drop the tail that no END has closed. -/
def Assembler.discardOpenUnit (s : Assembler C V) : ℕ × Assembler C V :=
  let discarded := (s.txn.map (·.count)).getD 0 + (s.chunk.map (·.count)).getD 0 +
    s.deferredSnapshots.length
  (discarded, { s with
    txn := none
    chunk := none
    deferredSnapshots := []
    discardedTailEvents := s.discardedTailEvents + discarded })

end CdcFlight
