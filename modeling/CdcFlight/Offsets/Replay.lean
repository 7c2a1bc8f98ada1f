import CdcFlight.Lib.Run
import CdcFlight.Offsets.Reconcile

/-!
# The replay of a lost acknowledgement

A destination COMMIT can survive a death before the connector acknowledges it. The next start then
finds `offsets.dat` behind the durable row and rewrites it, but the connector must not resume from
the rewritten file: it replays from the slot, with a disposable file. `offsets.py` records that
decision in a sidecar before the rewrite, keeps it until the disposable file was installed in place
of `offsets.dat`, and a process may die between any two of these effects.

The bytes of a file are an arbitrary type, read by `ObjectInputStream` and hashed by SHA-256, both
parameters. The sidecar is kept as the record that its JSON object stands for. Where
`offsets.py` raises, the process has no step but to die.

## Main definitions

* `CdcFlight.ReplayIntent`: the sidecar, with `arm`, `validate`, `markInstalling`,
  `installIsDurable`.
* `CdcFlight.ReplaySystem`, `CdcFlight.ReplaySystem.Step`: the effects of starts and runs.

## Main results

* `CdcFlight.ReplaySystem.acknowledged_of_launch`: a connector resumes only from what a connector
  wrote.
* `CdcFlight.ReplaySystem.installed_of_cleared`: the decision is dropped only when its file is
  installed and not ahead of the row.
-/

namespace CdcFlight

open Lib

/-! ### The sidecar -/

/-- Size and SHA-256 of a file. -/
structure Fingerprint where
  size : ℕ
  sha256 : String
deriving DecidableEq

/-- `REPLAY_INTENT_PHASES`, with the fields that belong to the phase. -/
inductive IntentPhase
  | pending
  | installing (source : Fingerprint)
deriving DecidableEq

/-- `ReplayIntent`. -/
structure ReplayIntent where
  pipeline : String
  ns : String
  durableCommitId : ℕ
  durableResumeDigest : String
  phase : IntentPhase := .pending
deriving DecidableEq

/-- The `OffsetUnusable` raises, and the `AttributeError` of `lsn_of` on a value that is no
object. -/
inductive ReplayError
  | foreignIntent
  | noDurableOffset
  | newerIntent
  | otherResumeRow
  | noFingerprint
  | attributeError
deriving DecidableEq

/-- What the code hashes and parses with, for the files `F`. -/
structure OffsetHost (F : Type) where
  /-- What `ObjectInputStream` finds. -/
  read : F → OffsetsFile
  /-- What `ObjectOutputStream` writes. -/
  write : Dict KeyBlob ValueBlob → F
  /-- `_file_fingerprint`. -/
  fingerprint : F → Fingerprint
  /-- `_resume_digest`. -/
  resumeDigest : ResumePoint → String

/-- The settings of a pipeline. -/
structure ReplayConfig where
  pipeline : String
  ns : String
  acceptOrphan : Bool
  /-- `repair_offset_file`. -/
  repair : Bool

/-- `_offset_map_is_behind`. -/
def offsetMapIsBehind (actual durable : ConnectMap) : Bool :=
  match lsnOf actual, lsnOf durable with
  | some actualLsn, some durableLsn =>
    decide (actualLsn < durableLsn) && actual.items.all fun item =>
      match item.2.asInt?, (durable.get? item.1).bind JsonValue.asInt? with
      | some value, some bound => decide (value ≤ bound)
      | _, _ => true
  | _, _ => false

/-- `_offset_file_is_not_ahead`. -/
def offsetFileIsNotAhead (ns : String) (file : OffsetsFile) (point : ResumePoint) :
    Except ReplayError Bool :=
  if point.offset = ∅ then .ok false
  else match file.read.items with
    | [(key, value)] =>
      if key = encodeKey ns point.partition then
        match value.loads with
        | none => .ok false
        | some none => .error .attributeError
        | some (some actual) =>
          .ok <| match lsnOf actual, lsnOf point.offset with
            | some actualLsn, some durableLsn =>
              if durableLsn < actualLsn then false
              else if actualLsn = durableLsn then decide (SameMap actual point.offset)
              else offsetMapIsBehind actual point.offset
            | _, _ => decide (SameMap actual point.offset)
      else .ok false
    | _ => .ok false

/-- `replay_offset_fingerprint` does not raise. -/
def OffsetsFile.Usable (file : OffsetsFile) : Prop :=
  file.present = true ∧ file.read.items ≠ [] ∧ file.parseOffsets.length = 1

instance (file : OffsetsFile) : Decidable file.Usable := inferInstanceAs (Decidable (_ ∧ _ ∧ _))

section Sidecar

variable {F : Type} (host : OffsetHost F) (config : ReplayConfig)

namespace ReplayIntent

/-- `validate_replay_intent`. -/
def validate (intent : ReplayIntent) (point : Option ResumePoint) : Except ReplayError Unit :=
  if intent.pipeline ≠ config.pipeline ∨ intent.ns ≠ config.ns then .error .foreignIntent
  else match point with
    | none => .error .noDurableOffset
    | some point =>
      if point.offset = ∅ then .error .noDurableOffset
      else if point.commitId < intent.durableCommitId then .error .newerIntent
      else if point.commitId = intent.durableCommitId ∧
          host.resumeDigest point ≠ intent.durableResumeDigest then .error .otherResumeRow
      else .ok ()

/-- `arm_replay_intent`. -/
def arm (existing : Option ReplayIntent) (point : ResumePoint) : Except ReplayError ReplayIntent :=
  if point.offset = ∅ then .error .noDurableOffset
  else match existing with
    | some intent => (intent.validate host config (some point)).map fun _ => intent
    | none => .ok {
        pipeline := config.pipeline
        ns := config.ns
        durableCommitId := point.commitId
        durableResumeDigest := host.resumeDigest point }

/-- `mark_replay_installing`. -/
def markInstalling (intent : ReplayIntent) (source : Fingerprint) :
    Except ReplayError ReplayIntent :=
  if source.size = 0 ∨ source.sha256.length ≠ 64 then .error .noFingerprint
  else .ok { intent with phase := .installing source }

/-- `replay_install_is_durable`. -/
def installIsDurable (intent : ReplayIntent) (target : Option F) (point : ResumePoint) :
    Except ReplayError Bool :=
  match intent.phase, target with
  | .installing source, some file =>
    if (host.read file).Usable ∧ host.fingerprint file = source then
      offsetFileIsNotAhead intent.ns (host.read file) point
    else .ok false
  | _, _ => .ok false

end ReplayIntent

end Sidecar

/-! ### What `reconcile` leaves alone -/

section Reconcile

variable {ns : String} {row : DurableRow} {repair : Bool} {file : OffsetsFile} {lsn : Option ℤ}

theorem repairFile_fst_eq_true_iff :
    (repairFile ns row repair file).1 = true ↔ repair = true ∧ row.point.offset ≠ ∅ := by
  rw [repairFile]
  by_cases hoffset : row.point.offset = ∅ <;> cases repair <;> simp [hoffset]

/-- Only a row with an offset map is repaired from. -/
theorem reconcileRow_repaired (h : (reconcileRow ns row repair file lsn).1.repaired = true) :
    repair = true ∧ row.point.offset ≠ ∅ := by
  simp only [reconcileRow, rebuilt] at h
  split_ifs at h <;> exact repairFile_fst_eq_true_iff.1 h

/-- `resume` is decided on a file that agrees, which is left alone. -/
theorem reconcileRow_resume (h : (reconcileRow ns row repair file lsn).1.decision = .resume) :
    agrees ns file.read row.point = true ∧
      (reconcileRow ns row repair file lsn).1.repaired = false := by
  simp only [reconcileRow, rebuilt] at h ⊢
  split_ifs at h ⊢ with _ _ _ _ _ _ hagrees
  exact ⟨by simpa using hagrees, rfl⟩

end Reconcile

/-! ### Starts and runs -/

/-- What outlives a process. -/
structure ReplayWorld (F : Type) where
  row : Option DurableRow
  /-- `offsets.dat`. -/
  file : Option F
  /-- `.offsets.replay.dat`. -/
  replay : Option F
  intent : Option ReplayIntent

/-- Where a process stands. -/
inductive ReplayProcess
  | off
  /-- Before the sidecar was read. -/
  | booting
  /-- About to remove a sidecar whose file is installed. -/
  | clearing
  | decided (intent : Option ReplayIntent)
  /-- In `reconcile`, after `before_repair`. -/
  | armed (intent : ReplayIntent)
  | reconciled (intent : Option ReplayIntent)
  /-- The connector runs on `offsets.dat`. -/
  | streaming
  /-- The connector runs on the disposable file. -/
  | replaying (intent : ReplayIntent)
  /-- The coordinator has returned. -/
  | replayed (intent : ReplayIntent)
  | marked (expected : Fingerprint)
  | installed
  | finished

/-- The durable world and the process on it. -/
structure ReplaySystem (F : Type) where
  world : ReplayWorld F
  process : ReplayProcess

/-- What happens next. -/
inductive ReplayStep (F : Type)
  | start
  /-- A journalled recovery discharges the sidecar. -/
  | discharge
  /-- The sidecar is read. -/
  | inspect
  | clear
  | arm
  | reconcile
  | launch
  /-- The applier commits a group. -/
  | commit (row : DurableRow)
  /-- The connector writes its file. -/
  | flush (file : F)
  | returned
  | mark
  | install
  /-- The process ends in order, or dies. -/
  | exit
  | crash

namespace ReplaySystem

variable {F : Type} (host : OffsetHost F) (config : ReplayConfig)

/-- `offsets.dat` as it is read. -/
def observed (w : ReplayWorld F) : OffsetsFile := w.file.elim .absent host.read

/-- `offsets.reconcile` of a process with or without a sidecar. -/
def reconciliation (w : ReplayWorld F) (intent : Option ReplayIntent) :
    Except ReconcileError (Reconciliation × OffsetsFile) :=
  CdcFlight.reconcile config.ns w.row (observed host w) config.acceptOrphan
    (config.repair && intent.isNone)

/-- `offsets.dat` after `reconcile`. -/
def written (w : ReplayWorld F) (result : Reconciliation × OffsetsFile) : Option F :=
  if result.1.repaired then some (host.write result.2.read) else w.file

/-- `_repair_with_intent` calls `before_repair`. -/
def Arms (w : ReplayWorld F) (decision : ReconcileDecision) : Prop :=
  decision ≠ .resume ∧ ∃ row, w.row = some row ∧ row.point.offset ≠ ∅

/-- One step of the world or the process. -/
inductive Step (s : ReplaySystem F) : ReplayStep F → ReplaySystem F → Prop
  | start (h : s.process = .off) : Step s .start { s with process := .booting }
  | discharge (h : s.process = .booting) :
    Step s .discharge ⟨{ s.world with replay := none, intent := none }, .decided none⟩
  | inspectNone (h : s.process = .booting) (hintent : s.world.intent = none) :
    Step s .inspect ⟨{ s.world with replay := none }, .decided none⟩
  | inspectInstalled {intent : ReplayIntent} {row : DurableRow} (h : s.process = .booting)
    (hintent : s.world.intent = some intent) (hrow : s.world.row = some row)
    (hvalid : intent.validate host config (some row.point) = .ok ())
    (hdurable : intent.installIsDurable host s.world.file row.point = .ok true) :
    Step s .inspect ⟨{ s.world with replay := none }, .clearing⟩
  | inspectPending {intent : ReplayIntent} {row : DurableRow} (h : s.process = .booting)
    (hintent : s.world.intent = some intent) (hrow : s.world.row = some row)
    (hvalid : intent.validate host config (some row.point) = .ok ())
    (hdurable : intent.installIsDurable host s.world.file row.point = .ok false) :
    Step s .inspect { s with process := .decided (some intent) }
  | clear (h : s.process = .clearing) :
    Step s .clear ⟨{ s.world with intent := none }, .decided none⟩
  | arm {row : DurableRow} {intent : ReplayIntent} {result : Reconciliation × OffsetsFile}
    (h : s.process = .decided none) (hresult : reconciliation host config s.world none = .ok result)
    (harms : Arms s.world result.1.decision) (hrow : s.world.row = some row)
    (hintent : ReplayIntent.arm host config s.world.intent row.point = .ok intent) :
    Step s .arm ⟨{ s.world with intent := some intent }, .armed intent⟩
  | repair {intent : ReplayIntent} {result : Reconciliation × OffsetsFile}
    (h : s.process = .armed intent)
    (hresult : reconciliation host config s.world none = .ok result) :
    Step s .reconcile
      ⟨{ s.world with file := written host s.world result }, .reconciled (some intent)⟩
  | reconcile {intent : Option ReplayIntent} {result : Reconciliation × OffsetsFile}
    (h : s.process = .decided intent)
    (hresult : reconciliation host config s.world intent = .ok result)
    (harms : intent = none → ¬ Arms s.world result.1.decision) :
    Step s .reconcile
      ⟨{ s.world with file := written host s.world result }, .reconciled intent⟩
  | launch (h : s.process = .reconciled none) : Step s .launch { s with process := .streaming }
  | launchReplay {intent : ReplayIntent} (h : s.process = .reconciled (some intent)) :
    Step s .launch ⟨{ s.world with replay := none }, .replaying intent⟩
  | commit (row : DurableRow)
    (h : s.process = .streaming ∨ ∃ intent, s.process = .replaying intent) :
    Step s (.commit row) { s with world := { s.world with row := some row } }
  | flush (file : F) (h : s.process = .streaming) :
    Step s (.flush file) { s with world := { s.world with file := some file } }
  | flushReplay (file : F) {intent : ReplayIntent} (h : s.process = .replaying intent) :
    Step s (.flush file) { s with world := { s.world with replay := some file } }
  | returned {intent : ReplayIntent} (h : s.process = .replaying intent) :
    Step s .returned { s with process := .replayed intent }
  | mark {intent marked : ReplayIntent} {file : F} (h : s.process = .replayed intent)
    (hreplay : s.world.replay = some file) (husable : (host.read file).Usable)
    (hmarked : intent.markInstalling (host.fingerprint file) = .ok marked) :
    Step s .mark ⟨{ s.world with intent := some marked }, .marked (host.fingerprint file)⟩
  | install {expected : Fingerprint} {file : F} {row : DurableRow}
    (h : s.process = .marked expected)
    (hreplay : s.world.replay = some file) (husable : (host.read file).Usable)
    (hexpected : host.fingerprint file = expected) (hrow : s.world.row = some row)
    (hahead : offsetFileIsNotAhead config.ns (host.read file) row.point = .ok true) :
    Step s .install ⟨{ s.world with file := some file }, .installed⟩
  | clearInstalled (h : s.process = .installed) :
    Step s .clear ⟨{ s.world with intent := none }, .finished⟩
  | exit : Step s .exit ⟨{ s.world with replay := none }, .off⟩
  | crash : Step s .crash { s with process := .off }

/-! ### What a process knows -/

/-- A file of a connector has the fingerprint. -/
def OfConnector (G : F → Prop) (print : Fingerprint) : Prop := ∃ g, G g ∧ host.fingerprint g = print

/-- `offsets.dat` is the file of a connector. -/
def Acknowledged (G : F → Prop) (w : ReplayWorld F) : Prop :=
  ∀ file, w.file = some file → OfConnector host G (host.fingerprint file)

/-- `offsets.dat` is the file of a connector, and not ahead of the durable row: its position is at
most that of the row's point. -/
def Installed (ns : String) (G : F → Prop) (w : ReplayWorld F) : Prop :=
  ∃ file row, w.file = some file ∧ w.row = some row ∧
    OfConnector host G (host.fingerprint file) ∧
    offsetFileIsNotAhead ns (host.read file) row.point = .ok true

/-- `offsets.dat` holds the durable offset map. -/
def Resumable (ns : String) (w : ReplayWorld F) : Prop :=
  ∀ row, w.row = some row → row.point.offset ≠ ∅ → HoldsExactly ns (observed host w) row.point

/-- What a process has found out, or done. -/
def Knows (ns : String) (G : F → Prop) (w : ReplayWorld F) : ReplayProcess → Prop
  | .clearing | .installed => Installed host ns G w
  | .decided intent => w.intent = intent
  | .armed intent => w.intent = some intent
  | .reconciled intent => w.intent = intent ∧ (intent = none → Resumable host ns w)
  | _ => True

/-- **The invariant**, for the files `G` of connectors. -/
structure Sound (G : F → Prop) (s : ReplaySystem F) : Prop where
  /-- Without a sidecar the file is one of a connector. -/
  file : s.world.intent = none → Acknowledged host G s.world
  replay : ∀ file, s.world.replay = some file → G file
  installing : ∀ intent source, s.world.intent = some intent → intent.phase = .installing source →
    OfConnector host G source
  process : Knows host config.ns G s.world s.process

variable {host config} {G : F → Prop} {s t : ReplaySystem F} {a : ReplayStep F}

/-- Where `before_repair` is not called, a file is left alone, and it holds the durable map if there
is one. -/
theorem reconciliation_of_not_arms {w : ReplayWorld F} {result : Reconciliation × OffsetsFile}
    (h : reconciliation host config w none = .ok result) (harms : ¬ Arms w result.1.decision) :
    written host w result = w.file ∧ Resumable host config.ns w := by
  rw [reconciliation, reconcile, except_bind_eq_ok] at h
  obtain ⟨lsn, -, h⟩ := h
  cases hrow : w.row with
  | none =>
    rw [hrow] at h
    dsimp only at h
    refine ⟨?_, fun row hrow' => by cases hrow.symm.trans hrow'⟩
    split_ifs at h <;> cases h <;> rfl
  | some row =>
    rw [hrow] at h
    obtain rfl := Except.ok.inj h
    have hresume : row.point.offset ≠ ∅ → _ := fun hoffset =>
      reconcileRow_resume (not_not.1 fun hne => harms ⟨hne, row, hrow, hoffset⟩)
    refine ⟨?_, fun row' hrow' hoffset => ?_⟩
    · rw [written, if_neg fun hrepaired => ?_]
      rw [(hresume (reconcileRow_repaired hrepaired).2).2] at hrepaired
      cases hrepaired
    · obtain rfl := Option.some.inj (hrow.symm.trans hrow')
      exact (agrees_iff.1 (hresume hoffset).1).resolve_left hoffset

theorem Installed.acknowledged {ns : String} {w : ReplayWorld F} (h : Installed host ns G w) :
    Acknowledged host G w := by
  obtain ⟨file, row, hfile, -, hprint, -⟩ := h
  intro file' hfile'
  rwa [← Option.some.inj (hfile.symm.trans hfile')]

/-- A sidecar that is found to be installed is. -/
theorem installed_of_isDurable {w : ReplayWorld F} {intent : ReplayIntent} {row : DurableRow}
    (hintent : ∀ source, intent.phase = .installing source → OfConnector host G source)
    (hvalid : intent.validate host config (some row.point) = .ok ()) (hrow : w.row = some row)
    (h : intent.installIsDurable host w.file row.point = .ok true) :
    Installed host config.ns G w := by
  have hns : intent.ns = config.ns := by
    by_contra hne
    rw [ReplayIntent.validate, if_pos (.inr hne)] at hvalid
    cases hvalid
  unfold ReplayIntent.installIsDurable at h
  split at h
  · rename_i source file hphase hfile
    split_ifs at h with husable
    · exact ⟨file, row, hfile, hrow, husable.2 ▸ hintent source hphase, hns ▸ h⟩
    · cases h
  · cases h

theorem markInstalling_ok {intent marked : ReplayIntent} {source : Fingerprint}
    (h : intent.markInstalling source = .ok marked) : marked.phase = .installing source := by
  rw [ReplayIntent.markInstalling] at h
  split_ifs at h
  rw [← Except.ok.inj h]

theorem arm_ok {intent : ReplayIntent} {point : ResumePoint}
    (h : ReplayIntent.arm host config none point = .ok intent) : intent.phase = .pending := by
  rw [ReplayIntent.arm] at h
  split_ifs at h
  rw [← Except.ok.inj h]

/-- **Step.** Whatever happens, and wherever a process dies, unless a recovery discharges the
sidecar. -/
theorem Sound.step (h : Sound host config G s) (ha : Step host config s a t)
    (hflush : ∀ file, a = .flush file → G file) (hdischarge : a ≠ .discharge) :
    Sound host config G t := by
  have hprocess := h.process
  cases ha with
  | start => exact ⟨h.file, h.replay, h.installing, trivial⟩
  | discharge => exact absurd rfl hdischarge
  | inspectNone _ hintent => exact ⟨h.file, nofun, h.installing, hintent⟩
  | inspectInstalled _ hintent hrow hvalid hdurable =>
    exact ⟨h.file, nofun, h.installing,
      installed_of_isDurable (h.installing _ · hintent) hvalid hrow hdurable⟩
  | inspectPending _ hintent => exact ⟨h.file, h.replay, h.installing, hintent⟩
  | clear hs =>
    rw [hs] at hprocess
    exact ⟨fun _ => Installed.acknowledged hprocess, h.replay, nofun, rfl⟩
  | arm hs _ _ _ hintent =>
    rw [hs] at hprocess
    rw [show s.world.intent = none from hprocess] at hintent
    refine ⟨nofun, h.replay, fun intent source hsome hphase => ?_, rfl⟩
    rw [← Option.some.inj hsome, arm_ok hintent] at hphase
    cases hphase
  | repair hs =>
    rw [hs] at hprocess
    refine ⟨fun hnone => ?_, h.replay, h.installing, hprocess, nofun⟩
    cases hnone.symm.trans hprocess
  | @reconcile intent result hs hresult harms =>
    rw [hs] at hprocess
    cases intent with
    | none =>
      obtain ⟨hfile, hresumable⟩ := reconciliation_of_not_arms hresult (harms rfl)
      rw [hfile]
      exact ⟨h.file, h.replay, h.installing, hprocess, fun _ => hresumable⟩
    | some intent =>
      refine ⟨fun hnone => ?_, h.replay, h.installing, hprocess, nofun⟩
      cases hnone.symm.trans hprocess
  | launch => exact ⟨h.file, h.replay, h.installing, trivial⟩
  | launchReplay => exact ⟨h.file, nofun, h.installing, trivial⟩
  | commit row hs =>
    refine ⟨h.file, h.replay, h.installing, ?_⟩
    rcases hs with hs | ⟨intent, hs⟩ <;> exact hs ▸ trivial
  | flush file hs =>
    refine ⟨fun _ file' hfile' => ?_, h.replay, h.installing, hs ▸ trivial⟩
    obtain rfl := Option.some.inj hfile'
    exact ⟨file, hflush file rfl, rfl⟩
  | flushReplay file hs =>
    refine ⟨h.file, fun file' hfile' => ?_, h.installing, hs ▸ trivial⟩
    rw [← Option.some.inj hfile']
    exact hflush file rfl
  | returned => exact ⟨h.file, h.replay, h.installing, trivial⟩
  | mark _ hreplay _ hmarked =>
    refine ⟨nofun, h.replay, fun intent source hsome hphase => ?_, trivial⟩
    rw [← Option.some.inj hsome, markInstalling_ok hmarked] at hphase
    exact IntentPhase.installing.inj hphase ▸ ⟨_, h.replay _ hreplay, rfl⟩
  | install _ hreplay _ _ hrow hahead =>
    have hinstalled : Installed host config.ns G { s.world with file := some _ } :=
      ⟨_, _, rfl, hrow, ⟨_, h.replay _ hreplay, rfl⟩, hahead⟩
    exact ⟨fun _ => hinstalled.acknowledged, h.replay, h.installing, hinstalled⟩
  | clearInstalled hs =>
    rw [hs] at hprocess
    exact ⟨fun _ => Installed.acknowledged hprocess, h.replay, nofun, trivial⟩
  | exit => exact ⟨h.file, nofun, h.installing, trivial⟩
  | crash => exact ⟨h.file, h.replay, h.installing, trivial⟩

/-- The files that a connector wrote in a run, and the file before it. A file that `reconcile` wrote
is not among them. -/
def Flushed (s : ReplaySystem F) (l : List (ReplayStep F)) (file : F) : Prop :=
  s.world.file = some file ∨ .flush file ∈ l

/-- **Run.** -/
theorem Sound.trace {l : List (ReplayStep F)} (h : Sound host config G s)
    (hl : Trace (Step host config) s l t) (hflush : ∀ file, .flush file ∈ l → G file)
    (hdischarge : .discharge ∉ l) : Sound host config G t :=
  hl.invariant_of_mem (Q := fun a => (∀ file, a = .flush file → G file) ∧ a ≠ .discharge)
    (fun _ _ _ hs ha hstep => hs.step hstep ha.1 ha.2)
    (fun _ ha => ⟨fun file heq => hflush file (heq ▸ ha), fun heq => hdischarge (heq ▸ ha)⟩) h

/-- A world without a sidecar, where nothing runs. -/
structure Quiet (s : ReplaySystem F) : Prop where
  process : s.process = .off
  intent : s.world.intent = none
  replay : s.world.replay = none

variable (host config) in
theorem Quiet.sound {l : List (ReplayStep F)} (h : s.Quiet) :
    Sound host config (s.Flushed l) s where
  file _ file hfile := ⟨file, .inl hfile, rfl⟩
  replay file hfile := by cases h.replay.symm.trans hfile
  installing intent _ hintent := by cases h.intent.symm.trans hintent
  process := h.process ▸ trivial

/-- **What a connector resumes from.** However many processes died and wherever, a connector that
is started on `offsets.dat` finds a file that a connector wrote, never one that `reconcile` did;
and if the durable row has an offset map, the file holds exactly that map. -/
theorem acknowledged_of_launch {l : List (ReplayStep F)} {u : ReplaySystem F} (hs : s.Quiet)
    (hl : Trace (Step host config) s l t) (hdischarge : .discharge ∉ l)
    (ha : Step host config t .launch u) (hu : u.process = .streaming) :
    (∀ file, u.world.file = some file →
        ∃ g, s.Flushed l g ∧ host.fingerprint g = host.fingerprint file) ∧
      ∀ row, u.world.row = some row → row.point.offset ≠ ∅ →
        HoldsExactly config.ns (observed host u.world) row.point := by
  have hsound := (hs.sound host config).trace hl (fun _ => .inr) hdischarge
  cases ha with
  | launch ht =>
    have hknows := hsound.process
    rw [ht] at hknows
    exact ⟨hsound.file hknows.1, hknows.2 rfl⟩
  | launchReplay => cases hu

/-- **When the decision is dropped.** Unless a recovery discharges it, a sidecar is removed only if
the file of a connector stands in place of `offsets.dat` and is not ahead of the durable row. -/
theorem installed_of_cleared {l : List (ReplayStep F)} {u : ReplaySystem F} (hs : s.Quiet)
    (hl : Trace (Step host config) s l t) (hdischarge : .discharge ∉ l)
    (ha : Step host config t a u) (hne : a ≠ .discharge) (hsome : t.world.intent ≠ none)
    (hnone : u.world.intent = none) :
    Installed host config.ns (s.Flushed l) u.world := by
  have hknows := ((hs.sound host config).trace hl (fun _ => .inr)
    hdischarge).process
  cases ha with
  | clear ht =>
    rw [ht] at hknows
    exact hknows
  | clearInstalled ht =>
    rw [ht] at hknows
    exact hknows
  | discharge => exact absurd rfl hne
  | arm => cases hnone
  | mark => cases hnone
  | _ => exact absurd hnone hsome

end ReplaySystem

namespace Accounts

open ReplaySystem

/-- The partition of the connector. -/
def serverPartition : ConnectMap := (∅ : ConnectMap).set "server" (.text "cdcflight")

/-- A file of the connector at a position. -/
def fileAt (lsn : ℤ) : OffsetsFile :=
  .entries ((∅ : Dict KeyBlob ValueBlob).set (encodeKey "cdcflight" serverPartition)
    (encodeValue ((∅ : ConnectMap).set "lsn" (.int lsn))))

/-- Files as they are read, under a digest that tells their positions apart. -/
def positionHost : OffsetHost OffsetsFile where
  read file := file
  write := .entries
  fingerprint file :=
    ⟨700, String.ofList (List.replicate 64 (if file = fileAt 100 then 'a' else 'b'))⟩
  resumeDigest _ := String.ofList (List.replicate 64 'c')

def replayConfig : ReplayConfig where
  pipeline := "flight"
  ns := "cdcflight"
  acceptOrphan := false
  repair := true

/-- A row whose commit was not acknowledged. -/
def unacknowledged : DurableRow where
  point :=
    { partition := serverPartition, offset := (∅ : ConnectMap).set "lsn" (.int 200)
      lastLsn := 200, commitId := 1 }

/-- Its sidecar. -/
def replayOf (phase : IntentPhase) : ReplayIntent where
  pipeline := "flight"
  ns := "cdcflight"
  durableCommitId := 1
  durableResumeDigest := positionHost.resumeDigest unacknowledged.point
  phase := phase

/-- The file of the connector is behind the row. -/
def lagging : ReplaySystem OffsetsFile :=
  ⟨⟨some unacknowledged, some (fileAt 100), none, none⟩, .off⟩

/-- The first replay dies. -/
def twoReplays : List (ReplayStep OffsetsFile) :=
  [.start, .inspect, .arm, .reconcile, .launch, .crash, .start, .inspect, .reconcile, .launch,
    .flush (fileAt 200), .returned, .mark, .install]

def installing : ReplayIntent := replayOf (.installing (positionHost.fingerprint (fileAt 200)))

theorem trace_twoReplays : Trace (Step positionHost replayConfig) lagging twoReplays
    ⟨⟨some unacknowledged, some (fileAt 200), some (fileAt 200), some installing⟩, .installed⟩ :=
  .cons (.start rfl) <| .cons (.inspectNone rfl rfl) <|
    .cons (.arm rfl rfl ⟨by decide, unacknowledged, rfl, by decide⟩ rfl rfl) <|
    .cons (.repair rfl rfl) <| .cons (.launchReplay rfl) <| .cons .crash <|
    .cons (.start rfl) <| .cons (.inspectPending rfl rfl rfl rfl rfl) <|
    .cons (.reconcile rfl rfl nofun) <| .cons (.launchReplay rfl) <|
    .cons (.flushReplay _ rfl) <| .cons (.returned rfl) <|
    .cons (.mark rfl rfl (by decide) rfl) <|
    .cons (.install rfl rfl (by decide) rfl rfl rfl) <| .nil _

theorem installed_twoReplays : Installed positionHost "cdcflight" (lagging.Flushed twoReplays)
    ⟨some unacknowledged, some (fileAt 200), some (fileAt 200), none⟩ :=
  installed_of_cleared ⟨rfl, rfl, rfl⟩ trace_twoReplays (by simp [twoReplays]) (.clearInstalled rfl)
    nofun nofun rfl

/-- The process ends, and the next one finds the file that was installed. -/
theorem trace_nextStart : Trace (Step positionHost replayConfig)
    ⟨⟨some unacknowledged, some (fileAt 200), some (fileAt 200), some installing⟩, .installed⟩
    [.clear, .exit, .start, .inspect, .reconcile]
    ⟨⟨some unacknowledged, some (fileAt 200), none, none⟩, .reconciled none⟩ :=
  .cons (.clearInstalled rfl) <| .cons .exit <| .cons (.start rfl) <|
    .cons (.inspectNone rfl rfl) <| .cons (.reconcile rfl rfl fun _ h => h.1 rfl) <| .nil _

theorem acknowledged_nextStart : HoldsExactly "cdcflight" (fileAt 200) unacknowledged.point :=
  (acknowledged_of_launch ⟨rfl, rfl, rfl⟩ (trace_twoReplays.append trace_nextStart)
    (by simp [twoReplays]) (.launch rfl) rfl).2 unacknowledged rfl (by decide)

end Accounts

end CdcFlight
