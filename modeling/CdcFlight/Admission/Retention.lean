import CdcFlight.Admission.Applier
import CdcFlight.Assembler.Wholeness

/-!
# Admission under the two retentions

The callback loop is run twice, once retaining every record of a unit and once the last record
only. What is decided on the units is the same in both runs as long as the decisions read off the
records do not tell the two retentions apart. The boundary of the snapshot and the declared rows of
an incremental chunk stand on units of one record, and the resume point is read off the last one,
which both retain. The idle heartbeat is read off all the records besides BEGIN and END: of a
transaction that carries heartbeats alone only the END is left, so the unit is taken for one that
enters the streaming phase.

## Main definitions

* `CdcFlight.Applier.SameDecisions`: what two runs have in common when retention decides nothing.
* `CdcFlight.Applier.heartbeatFree`: no transaction of heartbeats alone is ended in a run.

## Main results

* `CdcFlight.Applier.sameDecisions_of_heartbeatFree`: in a run without such a transaction the two
  retentions take the same decisions.
-/

namespace CdcFlight

open Lib

variable {C V D E : Type}

/-! ### Units -/

/-- A unit whose last record alone tells admission and the planner what its records do. -/
structure CompleteUnit.Plain (u : CompleteUnit C V) : Prop where
  boundary : (lastOnly u.records).any (fun r => r.kind = .snapshotBoundary) =
    u.records.any fun r => r.kind = .snapshotBoundary
  rows : terminalRows u.trim = terminalRows u

section Units

variable {cfg : AssemblerConfig C V} {rec : PendingRecord C V} {isOpen : Option (OpenTxn C V)}
  {u : CompleteUnit C V}

theorem CompleteUnit.Plain.of_length_le (h : u.records.length ≤ 1) : u.Plain := by
  have hrecords : lastOnly u.records = u.records := lastOnly_of_length_le h
  refine ⟨by rw [hrecords], ?_⟩
  rw [CompleteUnit.trim, hrecords]

theorem any_boundary_eq_false {records : List (PendingRecord C V)}
    (h : ∀ r ∈ records, r.kind ≠ .snapshotBoundary) :
    records.any (fun r => r.kind = .snapshotBoundary) = false := by
  simpa using h

theorem terminalRows_of_none (h : ∀ r ∈ u.records, r.incrementalRows = none) :
    terminalRows u = none := by
  rw [terminalRows]
  split_ifs
  · rw [List.findSome?_eq_none_iff]
    intro r hr
    exact h r (List.mem_reverse.1 hr)
  · rfl

/-- The units the assembler emits are plain. -/
theorem Emitted.plain (h : Emitted cfg rec isOpen u) : u.Plain := by
  rcases h with ⟨u, h⟩ | ⟨u, hkind, hrows⟩ | ⟨txn, _, hend, _, _, hplain⟩
  · exact .of_length_le h.le
  · have hlast : ∀ r ∈ lastOnly u.records, PlainRow r := fun r hr =>
      hrows r (mem_of_mem_lastOnly hr)
    have hkinds {r : PendingRecord C V} (hr : PlainRow r) : r.kind ≠ .snapshotBoundary := by
      rw [hr.1]
      simp
    refine ⟨?_, ?_⟩
    · rw [any_boundary_eq_false fun r hr => hkinds (hlast r hr),
        any_boundary_eq_false fun r hr => hkinds (hrows r hr)]
    · rw [terminalRows_of_none fun r hr => (hrows r hr).2,
        terminalRows_of_none fun r hr => (hlast r hr).2]
  · have hrecords : ∀ r ∈ ((txn.carry (cfg.retaining true) rec).unit rec).records,
        r.kind ≠ .snapshotBoundary :=
      forall_mem_retain cfg hplain (by rw [hend]; simp)
    refine ⟨?_, rfl⟩
    rw [any_boundary_eq_false hrecords,
      any_boundary_eq_false fun r hr => hrecords r (mem_of_mem_lastOnly hr)]

theorem heartbeatsOnly_of_rows {records : List (PendingRecord C V)}
    (h : ∀ r ∈ records, PlainRow r) : heartbeatsOnly records = false := by
  rcases records with _ | ⟨r, rest⟩
  · rfl
  · have hr : r.kind = .snapshot := (h r List.mem_cons_self).1
    simp [heartbeatsOnly, PendingRecord.isMarker, PendingRecord.isHeartbeat, hr]

theorem heartbeatsOnly_append_end (records : List (PendingRecord C V))
    (hend : rec.kind = .txnEnd) : heartbeatsOnly (records ++ [rec]) = heartbeatsOnly records := by
  simp [heartbeatsOnly, List.filter_append, PendingRecord.isMarker, hend]

/-- Retention decides on the idle heartbeat only for a transaction of heartbeats alone. -/
theorem Emitted.idle_trim (h : Emitted cfg rec isOpen u)
    (hfree : u.kind = .txn → ∀ txn, isOpen = some txn → rec.kind = .txnEnd →
      some txn.txnId = rec.txnId → verifyComplete txn rec = .ok () →
        heartbeatsOnly txn.records = false) :
    idleHeartbeatUnit u.trim = idleHeartbeatUnit u := by
  rcases h with ⟨u, h⟩ | ⟨u, hkind, hrows⟩ | ⟨txn, hopen, hend, hid, hwhole, hplain⟩
  · rw [idleHeartbeatUnit, CompleteUnit.trim, lastOnly_of_length_le h.le]
    rfl
  · rw [idleHeartbeatUnit, idleHeartbeatUnit, heartbeatsOnly_of_rows hrows]
    exact heartbeatsOnly_of_rows fun r hr => hrows r (mem_of_mem_lastOnly hr)
  · have hrecords : ((txn.carry (cfg.retaining true) rec).unit rec).records =
      txn.records ++ [rec] := rfl
    rw [idleHeartbeatUnit, idleHeartbeatUnit, CompleteUnit.trim, hrecords,
      lastOnly_append_singleton, heartbeatsOnly_append_end txn.records hend,
      hfree rfl txn hopen hend hid hwhole]
    exact heartbeatsOnly_append_end [] hend

end Units

/-! ### Groups -/

section Groups

variable {units : List (CompleteUnit C V)}

theorem hasBoundary_trim (h : ∀ u ∈ units, u.Plain) :
    SnapshotCompletion.hasBoundary (units.map CompleteUnit.trim) =
      SnapshotCompletion.hasBoundary units := by
  induction units with
  | nil => rfl
  | cons u units ih =>
    have hu := (h u List.mem_cons_self).boundary
    have hrest := ih fun u hu => h u (List.mem_cons_of_mem _ hu)
    simp only [SnapshotCompletion.hasBoundary, List.map_cons, List.any_cons] at hrest ⊢
    rw [hrest, CompleteUnit.trim, hu]

theorem dropLast_lastOnly (records : List (PendingRecord C V)) :
    (lastOnly records).dropLast = [] := by
  rw [lastOnly]
  cases records.getLast? with
  | none => rfl
  | some rec => rfl

theorem getLast?_lastOnly (records : List (PendingRecord C V)) :
    (lastOnly records).getLast? = records.getLast? := by
  rw [lastOnly]
  cases records.getLast? with
  | none => rfl
  | some rec => rfl

theorem terminalRecord_trim (units : List (CompleteUnit C V)) :
    terminalRecord (units.map CompleteUnit.trim) = terminalRecord units := by
  have hlast (u : CompleteUnit C V) : u.trim.records.getLast? = u.records.getLast? :=
    getLast?_lastOnly u.records
  simp only [terminalRecord, ← List.map_reverse, List.findSome?_map, Function.comp_def, hlast]

theorem pointFor_trim (connect : PendingRecord C V → ConnectOffsets)
    (units : List (CompleteUnit C V)) (previous : ResumePoint) (commitId snapshotEpoch : ℕ) :
    pointFor connect (units.map CompleteUnit.trim) previous commitId snapshotEpoch =
      pointFor connect units previous commitId snapshotEpoch := by
  have hlsn : groupLsn previous (units.map CompleteUnit.trim) = groupLsn previous units := by
    rw [groupLsn, groupLsn, List.map_map]
    rfl
  have horder : groupTotalOrder (units.map CompleteUnit.trim) = groupTotalOrder units := by
    simp only [groupTotalOrder, ← List.map_reverse, List.findSome?_map, Function.comp_def]
    rfl
  simp only [pointFor, groupPartition, groupOffset, terminalReadable, terminalRecord_trim, hlsn,
    horder, List.getLast?_map]
  cases units.getLast? with
  | none => rfl
  | some unit => rfl

theorem snapshotUnitsIn_trim (units : List (CompleteUnit C V)) :
    SnapshotCompletion.snapshotUnitsIn (units.map CompleteUnit.trim) =
      (SnapshotCompletion.snapshotUnitsIn units).map CompleteUnit.trim := by
  rw [SnapshotCompletion.snapshotUnitsIn, SnapshotCompletion.snapshotUnitsIn, List.filter_map]
  rfl

theorem validateSnapshotUnits_trim (c : SnapshotCompletion) (units : List (CompleteUnit C V)) :
    c.validateSnapshotUnits (units.map CompleteUnit.trim) = c.validateSnapshotUnits units := by
  simp only [SnapshotCompletion.validateSnapshotUnits, List.map_eq_nil_iff, List.mapM_map]
  rfl

theorem commitReady_trim (c : SnapshotCompletion) (h : ∀ u ∈ units, u.Plain) :
    c.commitReady (units.map CompleteUnit.trim) = c.commitReady units := by
  simp only [SnapshotCompletion.commitReady, snapshotUnitsIn_trim, validateSnapshotUnits_trim,
    hasBoundary_trim h]

theorem willCompleteAfterCommit_trim (c : SnapshotCompletion) (units : List (CompleteUnit C V)) :
    c.willCompleteAfterCommit (units.map CompleteUnit.trim) = c.willCompleteAfterCommit units := by
  simp only [SnapshotCompletion.willCompleteAfterCommit, snapshotUnitsIn_trim,
    validateSnapshotUnits_trim]

theorem observeCommittedGroup_trim (units : List (CompleteUnit C V)) (c : SnapshotCompletion) :
    SnapshotCompletion.observeCommittedGroup (units.map CompleteUnit.trim) c =
      SnapshotCompletion.observeCommittedGroup units c := by
  simp only [SnapshotCompletion.observeCommittedGroup, snapshotUnitsIn_trim,
    validateSnapshotUnits_trim]

end Groups

/-! ### Appliers -/

namespace Applier

/-- The applier that retained the last record of every unit only. -/
def trim (s : Applier C V D) : Applier C V D :=
  { s with
    assembler := s.assembler.trim
    group := { s.group with units := s.group.units.map CompleteUnit.trim }
    pendingDiscardedRecords := s.pendingDiscardedRecords.map lastOnly
    acknowledged := s.acknowledged.map lastOnly
    partlyAcknowledged := [] }

/-- The applier that retains every record holds plain units. -/
structure Plain (s : Applier C V D) : Prop where
  assembler : s.assembler.Plain
  units : ∀ u ∈ s.group.units, u.Plain

/-- **The same decisions**: the same units were classified, fenced, grouped and committed, the
same resume points resulted, and the snapshot phase and the destination are the same. Of the
acknowledgements of each unit the last one is the same. -/
structure SameDecisions (s t : Applier C V D) : Prop where
  decisions : t.decisions = s.decisions
  resumePoint : t.resumePoint = s.resumePoint
  snapshotCompletion : t.snapshotCompletion = s.snapshotCompletion
  destination : t.destination = s.destination
  group : t.group.units.map CompleteUnit.content = s.group.units.map CompleteUnit.content
  isSnapshot : t.group.isSnapshot = s.group.isSnapshot
  acknowledged : t.acknowledged = s.acknowledged.map lastOnly
  acknowledgedNotifications : t.acknowledgedNotifications = s.acknowledgedNotifications

/-- Two appliers that correspond: results agree, and states up to retention. -/
def Corresponds {α : Type} (a b : α) (s t : Applier C V D) : Prop :=
  b = a ∧ t = s.trim ∧ s.Plain

theorem sameDecisions_trim (s : Applier C V D) : SameDecisions s s.trim := by
  refine ⟨rfl, rfl, rfl, rfl, ?_, rfl, rfl, rfl⟩
  rw [trim, List.map_map]
  rfl

section Steps

variable {s : Applier C V D} (env : Surroundings C V D E)

/-- A change of state that commutes with retention. -/
theorem modify_coupled {f g : Applier C V D → Applier C V D} (hf : g s.trim = (f s).trim)
    (hplain : (f s).Plain) :
    Coupled Corresponds SameDecisions ((modify f : Admit C V D E Unit).run s)
      ((modify g : Admit C V D E Unit).run s.trim) :=
  .ok ⟨rfl, hf, hplain⟩

theorem throw_coupled {α : Type} (failure : AdmissionFailure E) :
    Coupled (Corresponds (α := α)) SameDecisions ((throw failure : Admit C V D E α).run s)
      ((throw failure : Admit C V D E α).run s.trim) :=
  .error (sameDecisions_trim s)

theorem observing_coupled {α : Type} (hs : s.Plain)
    {call call' : SnapshotCompletion → Observed α}
    (hcall : call' s.snapshotCompletion = call s.snapshotCompletion) :
    Coupled Corresponds SameDecisions ((observing call : Admit C V D E α).run s)
      ((observing call' : Admit C V D E α).run s.trim) := by
  have hcompletion : s.trim.snapshotCompletion = s.snapshotCompletion := rfl
  rw [EStateM.run, EStateM.run, observing, observing, hcompletion, hcall]
  cases call s.snapshotCompletion with
  | ok a c => exact .ok ⟨rfl, rfl, hs.assembler, hs.units⟩
  | error e c => exact .error (sameDecisions_trim { s with snapshotCompletion := c })

/-! ### Commit -/

theorem content_of_trim (hs : s.Plain) (trigger : String) (point : ResumePoint) :
    s.trim.content trigger point = s.content trigger point := by
  have hrows : (s.group.units.map CompleteUnit.trim).map terminalRows =
      s.group.units.map terminalRows := by
    rw [List.map_map]
    exact List.map_congr_left fun u hu => (hs.units u hu).rows
  have hunits : (s.group.units.map CompleteUnit.trim).map CompleteUnit.content =
      s.group.units.map CompleteUnit.content := by
    rw [List.map_map]
    rfl
  simp only [content, trim, hrows, hunits]
  rfl

theorem trim_acknowledge (completes : Bool) (d : D) :
    (s.acknowledge completes d).trim = s.trim.acknowledge completes d := by
  have hrecords : (s.group.units.map CompleteUnit.records).map lastOnly =
      (s.group.units.map CompleteUnit.trim).map CompleteUnit.records := by
    rw [List.map_map, List.map_map]
    rfl
  simp only [acknowledge, trim, List.map_append, hrecords, apply_ite (List.map lastOnly),
    List.map_nil]
  rfl

/-- Where one record of every unit is retained, none comes before the last. -/
theorem trim_acknowledgeFirst (completes : Bool) (d : D) (whole records : ℕ) :
    (s.acknowledgeFirst completes d whole records).trim =
      s.trim.acknowledgeFirst completes d whole records := by
  have hrecords : (s.group.units.map CompleteUnit.trim).map CompleteUnit.records =
      (s.group.units.map CompleteUnit.records).map lastOnly := by
    rw [List.map_map, List.map_map]
    rfl
  have hdiscarded : (if s.trim.group.isSnapshot then s.trim.pendingDiscardedRecords else []) =
      (if s.group.isSnapshot then s.pendingDiscardedRecords else []).map lastOnly := by
    rw [apply_ite (List.map lastOnly)]
    rfl
  have hnone (front back : List (List (PendingRecord C V))) (notifications : List ℕ) :
      ((front.map lastOnly ++ notifications.map (fun _ => []) ++ back.map lastOnly)[whole]?.getD
        []).dropLast.take records = [] := by
    have hempty : ∀ batch ∈ front.map lastOnly ++ notifications.map (fun _ => []) ++
        back.map lastOnly, batch.dropLast = [] := by
      intro batch hbatch
      rcases List.mem_append.1 hbatch with hbatch | hbatch
      · rcases List.mem_append.1 hbatch with hbatch | hbatch
        · obtain ⟨units, -, rfl⟩ := List.mem_map.1 hbatch
          exact dropLast_lastOnly units
        · obtain ⟨_, -, rfl⟩ := List.mem_map.1 hbatch
          rfl
      · obtain ⟨units, -, rfl⟩ := List.mem_map.1 hbatch
        exact dropLast_lastOnly units
    cases hat : (front.map lastOnly ++ notifications.map (fun _ => []) ++
        back.map lastOnly)[whole]? with
    | none => rw [Option.getD_none, List.dropLast_nil, List.take_nil]
    | some batch => rw [Option.getD_some, hempty batch (List.mem_of_getElem? hat), List.take_nil]
  have hunits : s.trim.group.units = s.group.units.map CompleteUnit.trim := rfl
  have hpending : s.trim.pendingSnapshotNotifications = s.pendingSnapshotNotifications := rfl
  simp only [acknowledgeFirst, hunits, hpending, hrecords, hdiscarded, hnone]
  simp only [trim, resetGroup, List.map_append, List.map_take, List.length_map, List.map_nil]

theorem plain_acknowledge (hs : s.Plain) (completes : Bool) (d : D) :
    (s.acknowledge completes d).Plain :=
  ⟨hs.assembler, hs.units⟩

theorem trim_install (trigger : String) (point : ResumePoint) :
    (s.install trigger point).trim = s.trim.install trigger point := by
  have hunits : (s.group.units.map CompleteUnit.trim).map CompleteUnit.content =
      s.group.units.map CompleteUnit.content := by
    rw [List.map_map]
    rfl
  simp only [install, trim, hunits]
  rfl

theorem commitTransaction_coupled (hs : s.Plain) (trigger : String) (completes : Bool) :
    Coupled Corresponds SameDecisions ((commitTransaction env trigger completes).run s)
      ((commitTransaction env trigger completes).run s.trim) := by
  have hpoint : pointFor env.connect s.trim.group.units s.trim.resumePoint s.trim.commitId
        (env.snapshotEpoch s.trim.destination) =
      pointFor env.connect s.group.units s.resumePoint s.commitId
        (env.snapshotEpoch s.destination) :=
    pointFor_trim ..
  simp only [commitTransaction, EStateM.run_bind, EStateM.run_get, hpoint, content_of_trim hs]
  cases pointFor env.connect s.group.units s.resumePoint s.commitId
      (env.snapshotEpoch s.destination) with
  | error error => exact .error (sameDecisions_trim s.resetGroup)
  | ok point =>
    have hdestination : s.trim.destination = s.destination := rfl
    simp only [hdestination]
    cases env.commit (s.content trigger point) s.destination with
    | error error => exact .error (sameDecisions_trim s.resetGroup)
    | ok d =>
      cases env.cutOff (s.content trigger point) s.destination with
      | some cutOff =>
        cases cutOff with
        | lostAnswer error =>
          exact .error (sameDecisions_trim { s.resetGroup with destination := d })
        | marking whole records error =>
          have htrim := trim_acknowledgeFirst (s := s) completes d whole records
          exact .error (htrim ▸ sameDecisions_trim (s.acknowledgeFirst completes d whole records))
      | none =>
        refine (modify_coupled (f := fun _ => s.acknowledge completes d)
          (g := fun _ => s.trim.acknowledge completes d) (trim_acknowledge completes d).symm
          (plain_acknowledge hs completes d)).bind fun _ _ s₁ t₁ h₁ => ?_
        obtain ⟨-, rfl, hs₁⟩ := h₁
        refine (observing_coupled hs₁ (observeCommittedGroup_trim s.group.units _)).bind
          fun _ _ s₂ t₂ h₂ => ?_
        obtain ⟨-, rfl, hs₂⟩ := h₂
        refine (modify_coupled (trim_install trigger point).symm
          ⟨hs₂.assembler, by simp [install]⟩).bind fun _ _ s₃ t₃ h₃ => ?_
        exact .ok ⟨rfl, h₃.2⟩

theorem isEmpty_trim : s.trim.group.units.isEmpty = s.group.units.isEmpty :=
  List.isEmpty_map

theorem commitGroup_coupled (hs : s.Plain) (trigger : String) :
    Coupled Corresponds SameDecisions ((commitGroup env trigger).run s)
      ((commitGroup env trigger).run s.trim) := by
  have hready : s.trim.snapshotCompletion.commitReady s.trim.group.units =
      s.snapshotCompletion.commitReady s.group.units :=
    commitReady_trim s.snapshotCompletion hs.units
  have hcompletes : s.trim.snapshotCompletion.willCompleteAfterCommit s.trim.group.units =
      s.snapshotCompletion.willCompleteAfterCommit s.group.units :=
    willCompleteAfterCommit_trim s.snapshotCompletion s.group.units
  simp only [commitGroup, EStateM.run_bind, EStateM.run_get, hready, hcompletes, isEmpty_trim]
  by_cases hempty : s.group.units.isEmpty = true
  · simp only [if_pos hempty]
    exact .ok ⟨rfl, rfl, hs⟩
  · simp only [if_neg hempty]
    rcases s.snapshotCompletion.commitReady s.group.units with error | _ | _
    · exact throw_coupled (.observation error)
    · exact .ok ⟨rfl, rfl, hs⟩
    · cases s.snapshotCompletion.willCompleteAfterCommit s.group.units with
      | error error => exact throw_coupled (.observation error)
      | ok completes => exact commitTransaction_coupled env hs trigger completes

/-! ### Admission -/

theorem takeRefusal_coupled (hs : s.Plain) (refusal : AdmissionRefusal) :
    Coupled Corresponds SameDecisions ((takeRefusal refusal : Admit C V D E Unit).run s)
      ((takeRefusal refusal : Admit C V D E Unit).run s.trim) := by
  rw [takeRefusal]
  split_ifs
  · exact throw_coupled (.refused refusal)
  · exact modify_coupled rfl ⟨hs.assembler, hs.units⟩

theorem observeUnit_coupled (hs : s.Plain) (u : CompleteUnit C V) :
    Coupled Corresponds SameDecisions ((observeUnit env u).run s)
      ((observeUnit env u.trim).run s.trim) := by
  have hobserved : env.observeUnit u.trim.content s.trim.destination =
    env.observeUnit u.content s.destination := rfl
  simp only [observeUnit, EStateM.run_bind, EStateM.run_get, hobserved]
  cases env.observeUnit u.content s.destination with
  | error refusal => exact throw_coupled (.refused refusal)
  | ok d => exact .ok ⟨rfl, rfl, hs.assembler, hs.units⟩

theorem checkStreamingAdmission_coupled (hs : s.Plain) :
    Coupled Corresponds SameDecisions ((checkStreamingAdmission : Admit C V D E Unit).run s)
      ((checkStreamingAdmission : Admit C V D E Unit).run s.trim) :=
  observing_coupled hs rfl

theorem mustCommit_coupled (hs : s.Plain) (result : CommitResult) :
    Coupled Corresponds SameDecisions ((mustCommit result : Admit C V D E Unit).run s)
      ((mustCommit result : Admit C V D E Unit).run s.trim) := by
  rw [mustCommit]
  split_ifs
  · exact .ok ⟨rfl, rfl, hs⟩
  · exact throw_coupled (.phaseBoundary result)

/-- A step that is taken under the same condition on both sides. -/
theorem onlyIf_coupled (hs : s.Plain) (b : Bool) {step step' : Admit C V D E Unit}
    (h : Coupled Corresponds SameDecisions (step.run s) (step'.run s.trim)) :
    Coupled Corresponds SameDecisions ((onlyIf b step).run s) ((onlyIf b step').run s.trim) := by
  rw [onlyIf, onlyIf]
  by_cases hb : b = true
  · rw [if_pos hb, if_pos hb]
    exact h
  · rw [if_neg hb, if_neg hb]
    exact .ok ⟨rfl, rfl, hs⟩

theorem crossBoundary_coupled (hs : s.Plain) (idle : Bool) :
    Coupled Corresponds SameDecisions ((crossBoundary env idle).run s)
      ((crossBoundary env idle).run s.trim) := by
  have hboundary : SnapshotCompletion.hasBoundary s.trim.group.units =
    SnapshotCompletion.hasBoundary s.group.units := hasBoundary_trim hs.units
  have hphase : s.trim.group.isSnapshot = s.group.isSnapshot := rfl
  rw [crossBoundary, EStateM.run_bind, EStateM.run_get, EStateM.run_bind, EStateM.run_get]
  simp only [isEmpty_trim, hboundary, hphase]
  by_cases hcross : (!s.group.units.isEmpty && s.group.isSnapshot &&
      SnapshotCompletion.hasBoundary s.group.units) = true
  · simp only [if_pos hcross]
    refine (commitGroup_coupled env hs "snapshot_chunk").bind fun result result' s₁ t₁ h₁ => ?_
    obtain ⟨rfl, rfl, hs₁⟩ := h₁
    refine (onlyIf_coupled hs₁ _ (checkStreamingAdmission_coupled hs₁)).bind
      fun _ _ s₂ t₂ h₂ => ?_
    obtain ⟨-, rfl, hs₂⟩ := h₂
    exact mustCommit_coupled hs₂ result'
  · simp only [if_neg hcross]
    exact onlyIf_coupled hs _ (checkStreamingAdmission_coupled hs)

theorem changePhase_coupled (hs : s.Plain) (isSnapshot wasSnapshot : Bool) :
    Coupled Corresponds SameDecisions ((changePhase env isSnapshot wasSnapshot).run s)
      ((changePhase env isSnapshot wasSnapshot).run s.trim) := by
  have hphase : s.trim.group.isSnapshot = s.group.isSnapshot := rfl
  rw [changePhase, EStateM.run_bind, EStateM.run_get, EStateM.run_bind, EStateM.run_get]
  simp only [isEmpty_trim, hphase]
  refine onlyIf_coupled hs _ ?_
  refine (commitGroup_coupled env hs _).bind fun result result' s₁ t₁ h₁ => ?_
  obtain ⟨rfl, rfl, hs₁⟩ := h₁
  exact mustCommit_coupled hs₁ result'

variable (cfg : AssemblerConfig C V)

theorem enrol_trim (u : CompleteUnit C V) :
    s.trim.enrol (cfg.retaining false) u.trim = (s.enrol (cfg.retaining true) u).trim := by
  have hlast : lastOnly (lastOnly u.records) = lastOnly u.records := by
    rw [lastOnly, getLast?_lastOnly, lastOnly]
  simp only [enrol, CompleteUnit.trim, AssemblerConfig.retaining, hlast]
  rfl

theorem appendUnit_coupled (hs : s.Plain) {u : CompleteUnit C V} (hu : u.Plain)
    (isSnapshot : Bool) :
    Coupled Corresponds SameDecisions
      ((modify (appendUnit (cfg.retaining true) u isSnapshot) : Admit C V D E Unit).run s)
      ((modify (appendUnit (cfg.retaining false) u.trim isSnapshot) : Admit C V D E Unit).run
        s.trim) := by
  refine modify_coupled ?_ ⟨hs.assembler, fun u' hu' => ?_⟩
  · rw [appendUnit, enrol_trim, isEmpty_trim]
    simp only [appendUnit, trim, List.map_append, List.map_singleton]
    rfl
  · rcases List.mem_append.1 hu' with hu' | hu'
    · exact hs.units u' hu'
    · obtain rfl := List.mem_singleton.1 hu'
      exact ⟨hu.boundary, hu.rows⟩

theorem admitAs_coupled (hs : s.Plain) {u : CompleteUnit C V} (hu : u.Plain)
    (isSnapshot idle : Bool) :
    Coupled Corresponds SameDecisions
      ((admitAs (cfg.retaining true) env u isSnapshot idle).run s)
      ((admitAs (cfg.retaining false) env u.trim isSnapshot idle).run s.trim) := by
  rw [admitAs, admitAs]
  have hnoted : (s.note (.classified u.content isSnapshot idle)).Plain :=
    ⟨hs.assembler, hs.units⟩
  refine (modify_coupled (f := note (.classified u.content isSnapshot idle))
    (g := note (.classified u.trim.content isSnapshot idle)) rfl hnoted).bind
    fun _ _ s₁ t₁ h₁ => ?_
  obtain ⟨-, rfl, hs₁⟩ := h₁
  rw [EStateM.run_bind, EStateM.run_get, EStateM.run_bind, EStateM.run_get]
  refine (onlyIf_coupled hs₁ _ (crossBoundary_coupled env hs₁ idle)).bind
    fun _ _ s₂ t₂ h₂ => ?_
  obtain ⟨-, rfl, hs₂⟩ := h₂
  refine (changePhase_coupled env hs₂ isSnapshot _).bind fun _ _ s₃ t₃ h₃ => ?_
  obtain ⟨-, rfl, hs₃⟩ := h₃
  refine (onlyIf_coupled hs₃ _ (observing_coupled hs₃ rfl)).bind fun _ _ s₄ t₄ h₄ => ?_
  obtain ⟨-, rfl, hs₄⟩ := h₄
  exact appendUnit_coupled cfg hs₄ hu isSnapshot

theorem admitUnit_coupled (hs : s.Plain) {u : CompleteUnit C V} (hu : u.Plain)
    (hidle : idleHeartbeatUnit u.trim = idleHeartbeatUnit u) :
    Coupled Corresponds SameDecisions ((admitUnit (cfg.retaining true) env u).run s)
      ((admitUnit (cfg.retaining false) env u.trim).run s.trim) := by
  have hsnapshot : isSnapshotUnit u.trim = isSnapshotUnit u := by
    rw [isSnapshotUnit, isSnapshotUnit, ← hu.boundary]
    rfl
  rw [admitUnit, admitUnit, hidle, hsnapshot]
  have hrefusals : Coupled (Corresponds (α := Unit)) SameDecisions
      ((forM u.admissionRefusals takeRefusal : Admit C V D E Unit).run s)
      ((forM u.trim.admissionRefusals takeRefusal : Admit C V D E Unit).run s.trim) := by
    refine (Coupled.loop (P := Eq) (R := fun s t => t = s.trim ∧ s.Plain) (List.forall₂_refl _)
      ?_ ⟨rfl, hs⟩).mono (fun _ _ _ _ h => ⟨rfl, h⟩) fun _ _ h => h
    rintro refusal _ s t rfl ⟨rfl, hs⟩
    exact (takeRefusal_coupled hs refusal).mono (fun _ _ _ _ h => h.2) fun _ _ h => h
  refine hrefusals.bind fun _ _ s₁ t₁ h₁ => ?_
  obtain ⟨-, rfl, hs₁⟩ := h₁
  refine (observeUnit_coupled env hs₁ u).bind fun _ _ s₂ t₂ h₂ => ?_
  obtain ⟨-, rfl, hs₂⟩ := h₂
  exact admitAs_coupled env cfg hs₂ hu _ _

/-- A unit on which both appliers decide alike: it is plain, and unless it is discarded, its last
record alone tells whether it is an idle heartbeat. -/
structure Alike (u : CompleteUnit C V) : Prop where
  plain : u.Plain
  idle : (cfg.discardStreaming && u.kind = .txn) = false →
    idleHeartbeatUnit u.trim = idleHeartbeatUnit u

theorem markIgnoredSnapshot_trim (u : CompleteUnit C V) :
    markIgnoredSnapshot env u.trim = (markIgnoredSnapshot env u).trim := by
  rw [markIgnoredSnapshot, markIgnoredSnapshot, apply_ite CompleteUnit.trim]
  rfl

theorem Alike.markIgnoredSnapshot {u : CompleteUnit C V} (hu : Alike cfg u) :
    Alike cfg (markIgnoredSnapshot env u) := by
  rw [Applier.markIgnoredSnapshot]
  split_ifs
  · exact ⟨⟨hu.plain.boundary, hu.plain.rows⟩, hu.idle⟩
  · exact hu

theorem sameDecisions_containRefusal {s t : Applier C V D} (h : SameDecisions s t)
    (failure : AdmissionFailure E) :
    SameDecisions (s.containRefusal failure) (t.containRefusal failure) := by
  cases failure with
  | refused refusal =>
    simp only [containRefusal]
    split_ifs
    · exact ⟨h.decisions, h.resumePoint, h.snapshotCompletion, h.destination, rfl, rfl,
        h.acknowledged, h.acknowledgedNotifications⟩
    · exact h
  | _ => exact h

theorem addUnit_coupled (hs : s.Plain) {u : CompleteUnit C V} (hu : Alike cfg u) :
    Coupled Corresponds SameDecisions ((addUnit (cfg.retaining true) env u).run s)
      ((addUnit (cfg.retaining false) env u.trim).run s.trim) := by
  have hdiscard (keepAll : Bool) :
    (cfg.retaining keepAll).discardStreaming = cfg.discardStreaming := rfl
  have hu' := hu.markIgnoredSnapshot env
  rw [EStateM.run, EStateM.run, addUnit, addUnit, markIgnoredSnapshot_trim]
  simp only [hdiscard]
  generalize Applier.markIgnoredSnapshot env u = u at hu' ⊢
  have hkind : u.trim.kind = u.kind := rfl
  rw [hkind]
  by_cases hdiscarded : (cfg.discardStreaming && u.kind = .txn) = true
  · simp only [if_pos hdiscarded]
    refine .ok ⟨rfl, ?_, hs.assembler, hs.units⟩
    simp only [discardResnapshotUnit, trim, List.map_append, List.map_singleton]
    rfl
  · simp only [if_neg hdiscarded]
    have h := admitUnit_coupled env cfg hs hu'.plain (hu'.idle (Bool.eq_false_iff.2 hdiscarded))
    generalize (admitUnit (cfg.retaining true) env u).run s = r at h ⊢
    generalize (admitUnit (cfg.retaining false) env u.trim).run s.trim = r' at h ⊢
    rcases h with h | h
    · exact .ok h
    · exact .error (sameDecisions_containRefusal h _)

/-- The units of a step, one by one. -/
theorem addUnits_coupled (hs : s.Plain) {units : List (CompleteUnit C V)}
    (hunits : ∀ u ∈ units, Alike cfg u) :
    Coupled Corresponds SameDecisions ((addUnits (cfg.retaining true) env units).run s)
      ((addUnits (cfg.retaining false) env (units.map CompleteUnit.trim)).run s.trim) := by
  have hpairs : List.Forall₂ (fun u u' => u' = u.trim ∧ Alike cfg u) units
      (units.map CompleteUnit.trim) := by
    rw [List.forall₂_map_right_iff, List.forall₂_same]
    exact fun u hu => ⟨rfl, hunits u hu⟩
  refine (Coupled.loop (R := fun s t => t = s.trim ∧ s.Plain) hpairs ?_ ⟨rfl, hs⟩).mono
    (fun _ _ _ _ h => ⟨rfl, h⟩) fun _ _ h => h
  rintro u _ s t ⟨rfl, hu⟩ ⟨rfl, hs⟩
  exact (addUnit_coupled env cfg hs hu).mono (fun _ _ _ _ h => h.2) fun _ _ h => h

theorem reserveCommitId_trim (calls : List (SpillCall C V)) :
    reserveCommitId (cfg.retaining false) calls s.trim =
      (reserveCommitId (cfg.retaining true) calls s).trim := by
  rw [reserveCommitId, reserveCommitId, apply_ite trim]
  rfl

theorem reserveCommitId_plain (hs : s.Plain) (calls : List (SpillCall C V)) :
    (reserveCommitId (cfg.retaining true) calls s).Plain := by
  rw [reserveCommitId]
  split_ifs
  · exact ⟨hs.assembler, hs.units⟩
  · exact hs

/-- A call of the assembler, and the units it returns. -/
theorem assembling_coupled (hs : s.Plain) {rec : PendingRecord C V}
    {call call' : Assemble C V (List (CompleteUnit C V))}
    (hcall : Coupled (Emits cfg rec s.assembler.txn) (fun _ _ => True) (call.run s.assembler)
      (call'.run s.assembler.trim)) :
    Coupled (fun units units' s' t' => units' = units.map CompleteUnit.trim ∧
        (∀ u ∈ units, Emitted cfg rec s.assembler.txn u) ∧ t' = s'.trim ∧ s'.Plain) SameDecisions
      ((assembling (cfg.retaining true) call : Admit C V D E _).run s)
      ((assembling (cfg.retaining false) call' : Admit C V D E _).run s.trim) := by
  have hassembler : s.trim.assembler = s.assembler.trim := rfl
  rw [EStateM.run, EStateM.run, assembling, assembling, hassembler]
  generalize call.run s.assembler = r at hcall ⊢
  generalize call'.run s.assembler.trim = r' at hcall ⊢
  rcases hcall with h | h
  · rename_i units units' a a'
    obtain ⟨rfl, hplain⟩ := h.states
    refine .ok ⟨h.trimmed, h.emitted, ?_, ?_⟩
    · exact reserveCommitId_trim (s := { s with assembler := a }) cfg _
    · exact reserveCommitId_plain (s := { s with assembler := a }) cfg ⟨hplain, hs.units⟩ _
  · rename_i e a a'
    have h := sameDecisions_trim s
    exact .error ⟨h.decisions, h.resumePoint, h.snapshotCompletion, h.destination, h.group,
      h.isSnapshot, h.acknowledged, h.acknowledgedNotifications⟩

/-! ### Callbacks -/

/-- A transaction of heartbeats alone ends with the record: it is proven whole, and a record that it
carries besides BEGIN and END is there and all such are heartbeats. -/
def endsHeartbeatTransaction (s : Applier C V D) : SourceCallback C V → Bool
  | .record input =>
    !cfg.discardStreaming && input.record.kind = .txnEnd && s.assembler.txn.any fun txn =>
      some txn.txnId = input.record.txnId && (verifyComplete txn input.record).isOk &&
        heartbeatsOnly txn.records
  | _ => false

theorem feed_alike {input : Decoded C V}
    (hfree : endsHeartbeatTransaction cfg s (.record input) = false) {u : CompleteUnit C V}
    (hu : Emitted cfg input.record s.assembler.txn u) : Alike cfg u := by
  refine ⟨hu.plain, fun hkept => hu.idle_trim fun hkind txn htxn hend hid hwhole => ?_⟩
  have hstreaming : cfg.discardStreaming = false := by simpa [hkind] using hkept
  simpa [endsHeartbeatTransaction, hstreaming, hend, htxn, hid, hwhole, Except.isOk, Except.toBool]
    using hfree

theorem handleNotification_coupled (hs : s.Plain) (notice : SnapshotNotification)
    (decoded : PendingRecord C V) (handle : ℕ) :
    Coupled Corresponds SameDecisions
      ((handleNotification (cfg.retaining true) env notice decoded handle).run s)
      ((handleNotification (cfg.retaining false) env notice decoded handle).run s.trim) := by
  have htxn : s.trim.assembler.txn.isSome = s.assembler.txn.isSome := Option.isSome_map
  rw [handleNotification, handleNotification, EStateM.run_bind, EStateM.run_get, EStateM.run_bind,
    EStateM.run_get]
  simp only [htxn]
  by_cases hopen : s.assembler.txn.isSome = true
  · simp only [if_pos hopen]
    exact throw_coupled _
  · simp only [if_neg hopen]
    split_ifs
    · exact throw_coupled _
    · refine (observing_coupled hs rfl).bind fun _ _ s₁ t₁ h₁ => ?_
      obtain ⟨-, rfl, hs₁⟩ := h₁
      refine Coupled.bind (modify_coupled ?_ ?_) fun _ _ s₂ t₂ h₂ => ?_
      · rfl
      · exact ⟨hs₁.assembler, hs₁.units⟩
      obtain ⟨-, rfl, hs₂⟩ := h₂
      refine onlyIf_coupled hs₂ _ ?_
      refine (assembling_coupled cfg hs₂ (feedSnapshotBoundary_coupled cfg hs₂.assembler)).bind
        fun units units' s₃ t₃ h₃ => ?_
      obtain ⟨rfl, hemitted, rfl, hs₃⟩ := h₃
      refine addUnits_coupled env cfg hs₃ fun u hu => ⟨(hemitted u hu).plain, fun _ => ?_⟩
      refine (hemitted u hu).idle_trim fun _ txn _ hend => ?_
      exact absurd hend (by simp [snapshotBoundary])

theorem commitGroup_discarded_coupled (hs : s.Plain) (trigger : String) :
    Coupled Corresponds SameDecisions
      ((do let _ ← commitGroup env trigger : Admit C V D E Unit).run s)
      ((do let _ ← commitGroup env trigger : Admit C V D E Unit).run s.trim) := by
  refine (commitGroup_coupled env hs trigger).bind fun _ _ s₁ t₁ h₁ => ?_
  exact .ok ⟨rfl, h₁.2⟩

theorem handle_coupled (hs : s.Plain) {callback : SourceCallback C V}
    (hfree : endsHeartbeatTransaction cfg s callback = false) :
    Coupled Corresponds SameDecisions ((handle (cfg.retaining true) env callback).run s)
      ((handle (cfg.retaining false) env callback).run s.trim) := by
  cases callback with
  | record input =>
    refine (assembling_coupled cfg hs (feed_coupled cfg hs.assembler input)).bind
      fun units units' s₁ t₁ h₁ => ?_
    obtain ⟨rfl, hemitted, rfl, hs₁⟩ := h₁
    exact addUnits_coupled env cfg hs₁ fun u hu => feed_alike cfg hfree (hemitted u hu)
  | notification notice decoded handle =>
    exact handleNotification_coupled env cfg hs notice decoded handle
  | incrementalNotice decoded finished =>
    have hsingle : (incrementalNoticeUnit decoded finished).records.length = 1 := by
      rcases finished with _ | ⟨schema, table, scanned⟩
      · rfl
      · rfl
    have htrim : (incrementalNoticeUnit decoded finished).trim =
        incrementalNoticeUnit decoded finished := by
      rw [CompleteUnit.trim, lastOnly_of_length_le hsingle.le]
    have halike : Alike cfg (incrementalNoticeUnit decoded finished) :=
      ⟨.of_length_le hsingle.le, fun _ => by rw [htrim]⟩
    have h := addUnit_coupled env cfg hs halike
    rwa [htrim] at h
  | policyBoundary =>
    have htxn : s.trim.assembler.txn.isNone = s.assembler.txn.isNone := Option.isNone_map
    rw [handle, handle, EStateM.run_bind, EStateM.run_get, EStateM.run_bind, EStateM.run_get]
    simp only [htxn, isEmpty_trim]
    exact onlyIf_coupled hs _ (commitGroup_discarded_coupled env hs _)
  | batchEnd trigger due =>
    have hspilled : s.trim.assembler.openUnitHasSpilled = s.assembler.openUnitHasSpilled := by
      rw [Assembler.openUnitHasSpilled, Assembler.openUnitHasSpilled, trim, Assembler.trim]
      cases s.assembler.txn with
      | none =>
        cases s.assembler.chunk with
        | none => rfl
        | some chunk => rfl
      | some txn =>
        cases s.assembler.chunk with
        | none => rfl
        | some chunk => rfl
    have hevents : s.trim.group.events = s.group.events := rfl
    have hnbytes : s.trim.group.nbytes = s.group.nbytes := rfl
    rw [handle, handle, commitDue, EStateM.run_bind, EStateM.run_get, EStateM.run_bind,
      EStateM.run_get]
    simp only [isEmpty_trim, hspilled, hevents, hnbytes]
    exact onlyIf_coupled hs _ (commitGroup_discarded_coupled env hs _)

end Steps

/-! ### Runs -/

variable (cfg : AssemblerConfig C V) (env : Surroundings C V D E)

/-- No transaction of heartbeats alone is ended in the run that retains every record. -/
def heartbeatFree : Applier C V D → List (SourceCallback C V) → Bool
  | _, [] => true
  | s, callback :: callbacks =>
    !endsHeartbeatTransaction cfg s callback &&
      match (handle (cfg.retaining true) env callback).run s with
      | .ok _ t => heartbeatFree t callbacks
      | .error _ _ => true

/-- The applier at the start of a run. -/
def fresh (snapshotCompletion : SnapshotCompletion) (resumePoint : ResumePoint) (nextCommitId : ℕ)
    (destination : D) : Applier C V D where
  snapshotCompletion := snapshotCompletion
  resumePoint := resumePoint
  nextCommitId := nextCommitId
  destination := destination

/-- **Admission does not depend on retention** over a run: with every record retained or the last
one only, both runs raise the same failure or none, and have taken the same decisions. -/
def RetentionIndependent (start : Applier C V D) (callbacks : List (SourceCallback C V)) : Prop :=
  Coupled (fun _ _ => SameDecisions) SameDecisions
    ((run (cfg.retaining true) env callbacks).run start)
    ((run (cfg.retaining false) env callbacks).run start)

theorem run_coupled {s : Applier C V D} (hs : s.Plain) {callbacks : List (SourceCallback C V)}
    (hfree : heartbeatFree cfg env s callbacks = true) :
    Coupled Corresponds SameDecisions ((run (cfg.retaining true) env callbacks).run s)
      ((run (cfg.retaining false) env callbacks).run s.trim) := by
  induction callbacks generalizing s with
  | nil => exact .ok ⟨rfl, rfl, hs⟩
  | cons callback callbacks ih =>
    rw [heartbeatFree, Bool.and_eq_true, Bool.not_eq_true'] at hfree
    obtain ⟨hfirst, hrest⟩ := hfree
    have hstep := handle_coupled env cfg hs hfirst
    rw [run, run, List.forM_cons, List.forM_cons, EStateM.run_bind, EStateM.run_bind]
    generalize (handle (cfg.retaining true) env callback).run s = r at hstep hrest ⊢
    generalize (handle (cfg.retaining false) env callback).run s.trim = r' at hstep ⊢
    rcases hstep with h | h
    · obtain ⟨-, rfl, ht⟩ := h
      exact ih ht hrest
    · exact .error h

theorem heartbeatFree_before {s : Applier C V D} {before callbacks : List (SourceCallback C V)}
    (hbefore : before <+: callbacks) (hfree : heartbeatFree cfg env s callbacks = true) :
    heartbeatFree cfg env s before = true := by
  induction before generalizing s callbacks with
  | nil => rfl
  | cons callback before ih =>
    obtain ⟨rest, rfl⟩ := hbefore
    rw [List.cons_append, heartbeatFree, Bool.and_eq_true] at hfree
    rw [heartbeatFree, Bool.and_eq_true]
    refine ⟨hfree.1, ?_⟩
    have hrest := hfree.2
    generalize (handle (cfg.retaining true) env callback).run s = r at hrest ⊢
    rcases r with ⟨_, t⟩ | ⟨_, t⟩
    · exact ih (List.prefix_append before rest) hrest
    · rfl

/-- **Same decisions.** A run in which no transaction of heartbeats alone is ended does not depend
on retention, and neither does any part of it from the start. -/
theorem sameDecisions_of_heartbeatFree (snapshotCompletion : SnapshotCompletion)
    (resumePoint : ResumePoint) (nextCommitId : ℕ) (destination : D)
    (callbacks : List (SourceCallback C V))
    (hfree : heartbeatFree cfg env
      (fresh snapshotCompletion resumePoint nextCommitId destination) callbacks = true) :
    ∀ before, before <+: callbacks → RetentionIndependent cfg env
      (fresh snapshotCompletion resumePoint nextCommitId destination) before := by
  intro before hbefore
  have hplain : (fresh snapshotCompletion resumePoint nextCommitId destination :
      Applier C V D).Plain := by
    refine ⟨⟨?_, ?_, ?_⟩, ?_⟩
    all_goals simp [fresh]
  have h := run_coupled cfg env hplain (heartbeatFree_before cfg env hbefore hfree)
  refine h.mono (fun _ _ s t hst => ?_) fun _ _ hst => hst
  obtain ⟨-, rfl, -⟩ := hst
  exact sameDecisions_trim s

end Applier

namespace Accounts

/-- The records of a transaction that carries one message. -/
def messageTransaction (messagePrefix : String) : List (PendingRecord Column String) :=
  [begins "7",
    { kind := .message
      txnId := some "7"
      totalOrder := some (.int 1)
      messagePrefix := some messagePrefix
      messageTransactional := some true
      lsn := some 210 },
    { kind := .txnEnd, raw := some 210, lsn := some 210, txnId := some "7",
      txnEventCount := some (.int 1) }]

/-- The callbacks of decoded records. -/
def callbacksOf (records : List (PendingRecord Column String)) :
    List (SourceCallback Column String) :=
  records.filterMap fun rec =>
    if h : rec.kind ≠ .snapshotBoundary ∧ rec.incrementalRows = none then
      some (.record ⟨rec, h.1, h.2⟩)
    else none

/-- A catalog and a destination that refuse nothing. -/
def willing : Surroundings Column String Unit Empty where
  connect := fromHandle
  observeUnit := fun _ d => .ok d
  snapshotEpoch := fun _ => 0
  commit := fun _ d => .ok d
  ignoredSourceTables := ∅

/-- An applier whose snapshot of the accounts has not started yet. -/
def awaitingSnapshot : Applier Column String Unit :=
  Applier.fresh (.ofTables true {"public.accounts"}) {} 1 ()

/-- An applier that needs no snapshot. -/
def streamingOnly : Applier Column String Unit := Applier.fresh (.ofTables false ∅) {} 1 ()

theorem auditMessage_retentionIndependent :
    Applier.RetentionIndependent {} willing streamingOnly
      (callbacksOf (messageTransaction "audit")) :=
  Applier.sameDecisions_of_heartbeatFree {} willing (.ofTables false ∅) {} 1 ()
    (callbacksOf (messageTransaction "audit")) (by decide +kernel) _ List.prefix_rfl

/-- The heartbeat query runs while the snapshot is awaited: with every record retained the
transaction is an idle heartbeat and joins a group; with the last one only it is refused as a
streaming unit. -/
theorem heartbeatMessage_not_retentionIndependent :
    ¬ Applier.RetentionIndependent {} willing awaitingSnapshot
      (callbacksOf (messageTransaction heartbeatPrefix)) := by
  intro h
  exact absurd h.returned_eq (by decide +kernel)

end Accounts

end CdcFlight
