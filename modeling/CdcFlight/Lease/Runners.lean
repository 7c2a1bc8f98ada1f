import CdcFlight.Lib.SnapshotCell

/-!
# Runners on one physical destination key

`destination_lease.Lease` of any number of service and batch runners on one destination key. The
lease row has a primary key, so there is at most one; it is written by the conditional statements
of acquisition, renewal, fence and release, under snapshot isolation. A fence is executed inside a
data transaction, every other statement is a transaction of its own, or is a release that is
executed inside a data transaction.

The statements of one call are separate steps, and the clock may advance and other runners may step
in between. A clock reading is one of any earlier moment, which also covers the clock of a
transaction, that is the one of its start. A statement that raises leaves everything unchanged.
The table is empty at the start, so the row has the columns that the current schema writes.

## Main definitions

* `CdcFlight.LeaseIdentity`, `CdcFlight.LeaseRow`, `CdcFlight.healthFromRow`.
* `CdcFlight.Fleet`, `CdcFlight.LeaseStep`, `CdcFlight.Fleet.step`.
-/

namespace CdcFlight

open Lib

/-! ### The lease row -/

/-- `Lease`, with the facts of its process. A service runner acquires with a heartbeat bound. -/
structure LeaseIdentity where
  leaseId : String
  ownerId : String
  serviceId : String
  workerGeneration : String
  /-- `socket.gethostname()` and `os.getpid()`. -/
  host : String
  pid : ℕ
  ttl : ℕ
  /-- `heartbeat_bound_seconds`; `none` for a batch runner. -/
  heartbeatBound : Option ℕ := none
  waitForExpiry : Bool := false

/-- A row of the table `lease`. -/
structure LeaseRow where
  leaseId : String
  fencingEpoch : ℕ
  serviceId : String
  workerGeneration : String
  ownerId : String
  host : String
  pid : ℕ
  renewedAt : ℕ
  expiresAt : ℕ
  /-- `state`, which is `released` or `held`. -/
  released : Bool
deriving DecidableEq

/-- The row an acquisition writes. -/
def LeaseIdentity.row (self : LeaseIdentity) (current epoch : ℕ) : LeaseRow where
  leaseId := self.leaseId
  fencingEpoch := epoch
  serviceId := self.serviceId
  workerGeneration := self.workerGeneration
  ownerId := self.ownerId
  host := self.host
  pid := self.pid
  renewedAt := current
  expiresAt := current + self.ttl
  released := false

/-- `LeaseHealth`, by its reason. -/
inductive LeaseHealth
  | noLeaseRow
  | released
  | leaseExpired
  | heartbeatStale
  | fresh
deriving DecidableEq, Repr

/-- `LeaseHealth.healthy`. -/
def LeaseHealth.healthy (health : LeaseHealth) : Bool := health = .fresh

/-- `LeaseHealth.reclaimable`. -/
def LeaseHealth.reclaimable (health : LeaseHealth) : Bool :=
  health = .noLeaseRow || health = .released || health = .leaseExpired

/-- `_health_from_row`. -/
def healthFromRow (row : Option LeaseRow) (current heartbeatBound : ℕ) : LeaseHealth :=
  match row with
  | none => .noLeaseRow
  | some row =>
    if row.released then .released
    else if row.expiresAt ≤ current then .leaseExpired
    else if row.renewedAt + heartbeatBound < current then .heartbeatStale
    else .fresh

/-- `_batch_owner_dead`, where `alive` is what signalling the process tells. -/
def batchOwnerDead (self : LeaseIdentity) (alive : Bool) (host : String) (pid : ℕ) : Bool :=
  host ≠ "" && host = self.host && pid ≠ 0 && !alive

/-- `_matches`, on a row. -/
def LeaseRow.matchesIdentity (row : LeaseRow) (self : LeaseIdentity) (epoch : ℕ) : Bool :=
  row.leaseId = self.leaseId && row.fencingEpoch = epoch && row.ownerId = self.ownerId &&
    row.serviceId = self.serviceId && row.workerGeneration = self.workerGeneration &&
    !row.released

/-- The predicate of `_conditional_refresh` with `require_live`. -/
def LeaseRow.refreshable (row : LeaseRow) (self : LeaseIdentity) (epoch current : ℕ) : Bool :=
  row.ownerId = self.ownerId && row.leaseId = self.leaseId && row.fencingEpoch = epoch &&
    row.serviceId = self.serviceId && row.workerGeneration = self.workerGeneration &&
    !row.released && decide (current < row.expiresAt)

/-- The row that a refresh writes. -/
def LeaseRow.refreshed (row : LeaseRow) (current ttl : ℕ) : LeaseRow :=
  { row with renewedAt := current, expiresAt := current + ttl }

/-- The predicate of `release`. -/
def LeaseRow.releasable (row : LeaseRow) (self : LeaseIdentity) (epoch : ℕ) : Bool :=
  row.ownerId = self.ownerId && row.leaseId = self.leaseId && row.fencingEpoch = epoch

/-- What `release` leaves of the row: a service retains it, a batch runner deletes it. -/
def LeaseRow.afterRelease (row : LeaseRow) (retain : Bool) : Option LeaseRow :=
  if retain then some { row with released := true } else none

/-! ### Acquisition -/

/-- Where a call of `acquire` stands. -/
inductive AcquirePhase
  | idle
  /-- No row was read; the insert comes next. -/
  | inserting (current : ℕ)
  /-- The holder is unhealthy but protected; its row is read again and again. -/
  | waiting
  /-- The wait is over; the row is read once more. -/
  | waited
  /-- The conditional update comes next: with the epoch that was read, and for a batch runner the
  host and the pid of an owner that was found dead. -/
  | takingOver (current oldEpoch : ℕ) (deadOwner : Option (String × ℕ))
  /-- The row is read to see whether the update won. -/
  | verifying (nextEpoch : ℕ)
deriving DecidableEq

/-- The epoch that a takeover asks for. -/
def nextEpoch (oldEpoch : ℕ) : ℕ := max 1 (oldEpoch + 1)

/-- What a reading of the row leads to: the phase and the `fencing_epoch` of the runner. -/
structure Inspection where
  phase : AcquirePhase
  epoch : Option ℕ

/-- The takeover is prepared. -/
def prepareTakeover (row : LeaseRow) (current : ℕ) (deadOwner : Option (String × ℕ)) :
    Inspection where
  phase := .takingOver current row.fencingEpoch deadOwner
  epoch := some (nextEpoch row.fencingEpoch)

/-- The decision of `acquire` on the row it reads first. The process of the owner is asked twice,
for the decision and for the predicate of the update. -/
def inspectRow (self : LeaseIdentity) (epoch : Option ℕ) (current : ℕ) (alive alive' : Bool)
    (row : Option LeaseRow) : Inspection :=
  match row with
  | none => { phase := .inserting current, epoch := some 1 }
  | some row =>
    if row.leaseId = self.leaseId ∧ row.ownerId = self.ownerId then
      { phase := .idle, epoch := some (if row.fencingEpoch = 0 then 1 else row.fencingEpoch) }
    else match self.heartbeatBound with
      | some bound =>
        let health := healthFromRow (some row) current bound
        if health.healthy then { phase := .idle, epoch }
        else if !health.reclaimable then
          { phase := if self.waitForExpiry then .waiting else .idle, epoch }
        else prepareTakeover row current none
      | none =>
        let live := !row.released && decide (current < row.expiresAt)
        if live && !batchOwnerDead self alive row.host row.pid then { phase := .idle, epoch }
        else prepareTakeover row current
          (if batchOwnerDead self alive' row.host row.pid then some (row.host, row.pid) else none)

/-- One round of the wait for expiry: it ends when the row is gone or reclaimable, and the
acquisition ends when the holder has become healthy. -/
def pollRow (self : LeaseIdentity) (epoch : Option ℕ) (current : ℕ) (row : Option LeaseRow) :
    Inspection :=
  let health := healthFromRow row current (self.heartbeatBound.getD 0)
  if health.healthy then { phase := .idle, epoch }
  else if health.reclaimable then { phase := .waited, epoch }
  else { phase := .waiting, epoch }

/-- After the wait the row is taken over as it is read; without a row `acquire` starts again. -/
def afterWait (current : ℕ) (row : Option LeaseRow) : Inspection :=
  match row with
  | none => { phase := .idle, epoch := some 1 }
  | some row => prepareTakeover row current none

/-- The predicate of the takeover. -/
def LeaseRow.takeable (row : LeaseRow) (current oldEpoch : ℕ)
    (deadOwner : Option (String × ℕ)) : Bool :=
  row.fencingEpoch = oldEpoch &&
    (row.released || decide (row.expiresAt ≤ current) || deadOwner = some (row.host, row.pid))

/-! ### Runners and steps -/

/-- A data transaction: its snapshot of the row, and the epoch under which it was fenced. -/
structure DataTransaction where
  snapshot : Cell.Snapshot (Option LeaseRow)
  fence : Option ℕ := none

/-- A runner: `fencing_epoch`, its call of `acquire`, and its data transaction. -/
structure Runner where
  epoch : Option ℕ := none
  phase : AcquirePhase := .idle
  txn : Option DataTransaction := none

/-- What is committed about the lease. -/
inductive LeaseEvent (R : Type)
  /-- A runner acquired the lease, over the row it replaced. -/
  | acquired (runner : R) (epoch : ℕ) (replaced : Option LeaseRow) (time : ℕ)
  /-- The row was deleted. -/
  | deleted
  /-- A data transaction, with the epoch under which it was fenced. -/
  | dataCommitted (runner : R) (fence : Option ℕ)
deriving DecidableEq

/-- The destination with all the runners. -/
structure Fleet (R : Type) where
  clock : ℕ := 0
  cell : Cell R (Option LeaseRow) := { committed := none }
  runners : R → Runner := fun _ => {}
  log : List (LeaseEvent R) := []

/-- The steps. -/
inductive LeaseStep (R : Type)
  | tick
  /-- `acquire` reads the clock and the row. -/
  | inspect (runner : R) (current : ℕ) (alive alive' : Bool)
  | poll (runner : R) (current : ℕ)
  | reread (runner : R) (current : ℕ)
  | insert (runner : R)
  | takeover (runner : R)
  | verify (runner : R)
  /-- `acquire` gives up: a budget is exhausted, or a statement raised. -/
  | abandon (runner : R)
  | begin (runner : R)
  /-- `fence`, with the two clock readings. -/
  | fence (runner : R) (current observed : ℕ)
  | commit (runner : R)
  | rollback (runner : R)
  | renewControl (runner : R) (current : ℕ)
  | release (runner : R) (retain : Bool)
  /-- `release` on the handle of the data transaction. -/
  | releaseInside (runner : R) (retain : Bool)

namespace Fleet

variable {R : Type} [DecidableEq R] (identity : R → LeaseIdentity)

/-- The runner is replaced. -/
def setRunner (s : Fleet R) (r : R) (runner : Runner) : Fleet R :=
  { s with runners := Function.update s.runners r runner }

/-- The call of `acquire` goes on. -/
def proceed (s : Fleet R) (r : R) (inspection : Inspection) : Fleet R :=
  s.setRunner r { s.runners r with phase := inspection.phase, epoch := inspection.epoch }

/-- The phase of a call of `acquire` is replaced. -/
def setPhase (s : Fleet R) (r : R) (phase : AcquirePhase) : Fleet R :=
  s.setRunner r { s.runners r with phase := phase }

/-- A statement that is a transaction of its own writes the row; a conflict leaves all unchanged. -/
def writeNow (s : Fleet R) (row : Option LeaseRow) (events : List (LeaseEvent R)) : Fleet R :=
  match s.cell.writeNow row with
  | some cell => { s with cell := cell, log := s.log ++ events }
  | none => s

/-- The insert of a runner that read no row: the primary key refuses a second row. -/
def insertRow (s : Fleet R) (r : R) : Fleet R :=
  match (s.runners r).phase with
  | .inserting current =>
    match s.cell.committed with
    | some _ => s.setPhase r .idle
    | none =>
      (s.writeNow (some ((identity r).row current 1)) [.acquired r 1 none s.clock]).setPhase r .idle
  | _ => s

/-- The conditional update. A conflict is retried; an update of no row goes on to the check. -/
def takeover (s : Fleet R) (r : R) : Fleet R :=
  match (s.runners r).phase with
  | .takingOver current oldEpoch deadOwner =>
    let next := nextEpoch oldEpoch
    match s.cell.committed with
    | some row =>
      if row.takeable current oldEpoch deadOwner then
        if s.cell.writer.isSome then s
        else (s.writeNow (some ((identity r).row current next))
          [.acquired r next (some row) s.clock]).setPhase r (.verifying next)
      else s.setPhase r (.verifying next)
    | none => s.setPhase r (.verifying next)
  | _ => s

/-- `fence` inside a data transaction. A fence that finds no row to refresh raises, since the row
is then not its own or not live at the second reading of the clock either. -/
def fence (s : Fleet R) (r : R) (current observed : ℕ) : Fleet R :=
  match (s.runners r).txn, (s.runners r).epoch with
  | some txn, some epoch =>
    match s.cell.read r txn.snapshot with
    | some row =>
      if row.refreshable (identity r) epoch current then
        let row := row.refreshed current (identity r).ttl
        match s.cell.write r txn.snapshot (some row) with
        | some cell =>
          let written := { s with cell := cell }
          if observed < row.expiresAt then
            written.setRunner r
              { s.runners r with txn := some { txn with fence := some epoch } }
          else written
        | none => s
      else s
    | none => s
  | _, _ => s

/-- COMMIT of a data transaction. -/
def commit (s : Fleet R) (r : R) : Fleet R :=
  match (s.runners r).txn with
  | some txn =>
    let cell := s.cell.commit r
    let deleted := if s.cell.committed.isSome && cell.committed.isNone then [.deleted] else []
    { s with
      cell := cell
      runners := Function.update s.runners r { s.runners r with txn := none }
      log := s.log ++ (.dataCommitted r txn.fence :: deleted) }
  | none => s

/-- ROLLBACK of a data transaction. -/
def rollback (s : Fleet R) (r : R) : Fleet R :=
  match (s.runners r).txn with
  | some _ =>
    { s with
      cell := s.cell.rollback r
      runners := Function.update s.runners r { s.runners r with txn := none } }
  | none => s

/-- `renew_control`, on a connection of its own. -/
def renewControl (s : Fleet R) (r : R) (current : ℕ) : Fleet R :=
  match (s.runners r).epoch, s.cell.committed with
  | some epoch, some row =>
    if row.refreshable (identity r) epoch current then
      s.writeNow (some (row.refreshed current (identity r).ttl)) []
    else s
  | _, _ => s

/-- `release` as a statement of its own. -/
def release (s : Fleet R) (r : R) (retain : Bool) : Fleet R :=
  match (s.runners r).epoch, s.cell.committed with
  | some epoch, some row =>
    if row.releasable (identity r) epoch then
      s.writeNow (row.afterRelease retain) (if retain then [] else [.deleted])
    else s
  | _, _ => s

/-- `release` inside a data transaction. -/
def releaseInside (s : Fleet R) (r : R) (retain : Bool) : Fleet R :=
  match (s.runners r).txn, (s.runners r).epoch with
  | some txn, some epoch =>
    match s.cell.read r txn.snapshot with
    | some row =>
      if row.releasable (identity r) epoch then
        match s.cell.write r txn.snapshot (row.afterRelease retain) with
        | some cell => { s with cell := cell }
        | none => s
      else s
    | none => s
  | _, _ => s

/-- One step. A clock reading is of no later moment, and of two readings of one call the second is
not earlier. -/
def step (s : Fleet R) : LeaseStep R → Fleet R
  | .tick => { s with clock := s.clock + 1 }
  | .inspect r current alive alive' =>
    if (s.runners r).phase = .idle ∧ current ≤ s.clock then
      s.proceed r (inspectRow (identity r) (s.runners r).epoch current alive alive'
        s.cell.committed)
    else s
  | .poll r current =>
    if (s.runners r).phase = .waiting ∧ current ≤ s.clock then
      s.proceed r (pollRow (identity r) (s.runners r).epoch current s.cell.committed)
    else s
  | .reread r current =>
    if (s.runners r).phase = .waited ∧ current ≤ s.clock then
      s.proceed r (afterWait current s.cell.committed)
    else s
  | .insert r => s.insertRow identity r
  | .takeover r => s.takeover identity r
  | .verify r =>
    match (s.runners r).phase with
    | .verifying _ => s.setPhase r .idle
    | _ => s
  | .abandon r => s.setPhase r .idle
  | .begin r =>
    if (s.runners r).txn.isNone then
      s.setRunner r { s.runners r with txn := some { snapshot := s.cell.snapshot } }
    else s
  | .fence r current observed =>
    if current ≤ observed ∧ observed ≤ s.clock then s.fence identity r current observed else s
  | .commit r => s.commit r
  | .rollback r => s.rollback r
  | .renewControl r current =>
    if current ≤ s.clock then s.renewControl identity r current else s
  | .release r retain => s.release identity r retain
  | .releaseInside r retain => s.releaseInside identity r retain

/-- A run from an empty table. -/
def run (steps : List (LeaseStep R)) : Fleet R :=
  steps.foldl (step identity) {}

end Fleet

end CdcFlight
