import CdcFlight.Lib.Slices
import CdcFlight.SchemaEpoch.Classify

/-!
# Units and schema actions of a commit group

`SchemaEpochCoordinator.apply`: the schema actions of a catalog plan are taken in the order of
their boundaries, those of one boundary together. Before each phase the coordinator applies the
units up to the boundary, as far as none of them has the shape that the actions produce; after the
last phase it applies the rest.

The callbacks are recorded in the order of their calls, with what `GroupPlan.write` does to the
spill store: it clears the rows of the commit group if it is told to and if one of the units it was
given is staged. The counts they return are not part of the model.

## Main definitions

* `CdcFlight.SchemaEpochCoordinator.apply`: the calls, and the spill store they leave.
* `CdcFlight.EpochApplied`: what the calls have to be.

## Main results

* `CdcFlight.epochApplied_iff`: the groups and plans for which they are.
* `CdcFlight.inOrderForPhases_of_pairwise`: units in the order of their positions are in order for
  every phase.
-/

namespace CdcFlight

open Lib

variable {C V : Type}

/-! ### The calls -/

/-- `CatalogPlan`, with the names of its relations and the tables of its policy alerts. -/
structure CatalogPlan where
  actions : List CatalogAction := []
  relations : List String := []
  policyAlerts : List (String × String) := []

/-- A callback of the coordinator. -/
inductive EpochCall (C V : Type)
  | applyUnits (units : List (CompleteUnit C V)) (clearSpill : Bool)
  | applyCatalogPhase (phase : CatalogPlan)
  | backfillSchema (phase : CatalogPlan)
  | clearSpill

/-- The calls made so far, and the spill store. -/
structure EpochRun (C V : Type) where
  calls : List (EpochCall C V) := []
  spill : Spill C V

/-- The unit sets `GroupPlan.staged_units`: it is fenced, or added by `add_unit`, which returns
early on control units and ignored units. -/
def CompleteUnit.setsStaged (unit : CompleteUnit C V) : Bool :=
  unit.spillUnitSeq.isSome && (unit.fenced || unit.kind ≠ .control && !unit.ignored)

/-- `_apply_units`. -/
def EpochRun.applyUnits (run : EpochRun C V) (commitId : ℕ) (units : List (CompleteUnit C V))
    (clearSpill : Bool) : EpochRun C V where
  calls := run.calls ++ [.applyUnits units clearSpill]
  spill := if clearSpill && units.any CompleteUnit.setsStaged then run.spill.clear commitId
    else run.spill

namespace SchemaEpochCoordinator

/-- The order of the schema actions: by boundary, then by name. -/
def actionLe (a b : CatalogAction) : Bool :=
  a.change.detectedLsn < b.change.detectedLsn ||
    a.change.detectedLsn = b.change.detectedLsn && a.change.qualified ≤ b.change.qualified

/-- The schema actions of a plan, in order. -/
def schemaActions (plan : Option CatalogPlan) : List CatalogAction :=
  ((plan.elim [] (·.actions)).filter (·.change.kind = .schemaChanged)).mergeSort actionLe

/-- The phases: the actions of one boundary. -/
def phasesOf (actions : List CatalogAction) : List (List CatalogAction) :=
  actions.splitBy fun a b => a.change.detectedLsn = b.change.detectedLsn

/-- The boundary of a phase. -/
def boundaryOf (phase : List CatalogAction) : ℕ :=
  (phase.head?.map (·.change.detectedLsn)).getD 0

/-- The part of the plan that belongs to a phase. -/
def phasePlan (plan : Option CatalogPlan) (phase : List CatalogAction) : CatalogPlan :=
  let names := phase.map (·.change.qualified)
  { actions := phase
    relations := (plan.elim [] (·.relations)).filter (· ∈ names)
    policyAlerts := (plan.elim [] (·.policyAlerts)).filter fun alert =>
      alert.1 ++ "." ++ alert.2 ∈ names }

variable [DecidableEq C] [ToString C] (normalize : String → C) (commitId : ℕ)

/-- The units up to the first one that is post-fence. -/
def unitsBefore (spill : Spill C V) (phase : List CatalogAction) :
    List (CompleteUnit C V) → Except Refusal (List (CompleteUnit C V))
  | [] => .ok []
  | unit :: units => do
    if ← unitIsPostSchemaEpoch normalize spill unit phase commitId then return []
    else return unit :: (← unitsBefore spill phase units)

/-- The calls of the phases; the units that are left. -/
def applyPhases (plan : Option CatalogPlan) (group : List (CompleteUnit C V)) :
    List (List CatalogAction) → List (CompleteUnit C V) → EpochRun C V →
      Except Refusal (List (CompleteUnit C V) × EpochRun C V)
  | [], rest, run => .ok (rest, run)
  | phase :: phases, rest, run => do
    -- Replayed units are no evidence for an epoch.
    forM (group.filter (!·.fenced)) fun unit =>
      refuseMixedSchemaEpoch normalize (eventsForSchemaCheck run.spill unit commitId) phase
    let slice ← unitsBefore normalize commitId run.spill phase
      (rest.takeWhile (·.lastLsn ≤ boundaryOf phase))
    let run := if slice.isEmpty then run else run.applyUnits commitId slice false
    applyPhases plan group phases (rest.drop slice.length)
      { run with calls := run.calls ++
          [.applyCatalogPhase (phasePlan plan phase), .backfillSchema (phasePlan plan phase)] }

/-- `SchemaEpochCoordinator.apply`. -/
def apply (spill : Spill C V) (group : List (CompleteUnit C V)) (plan : Option CatalogPlan) :
    Except Refusal (EpochRun C V) :=
  let start : EpochRun C V := { spill }
  if (schemaActions plan).isEmpty then .ok (start.applyUnits commitId group true)
  else do
    let (rest, run) ← applyPhases normalize commitId plan group (phasesOf (schemaActions plan))
      group start
    if !rest.isEmpty then return run.applyUnits commitId rest true
    else if group.any (·.spillUnitSeq.isSome) then
      return { calls := run.calls ++ [.clearSpill], spill := run.spill.clear commitId }
    else return run

end SchemaEpochCoordinator

/-! ### What the calls have to be -/

/-- The units that were applied, in order. -/
def appliedUnits (calls : List (EpochCall C V)) : List (CompleteUnit C V) :=
  calls.flatMap fun
    | .applyUnits units _ => units
    | _ => []

/-- The actions that were run, in order. -/
def appliedActions (calls : List (EpochCall C V)) : List CatalogAction :=
  calls.flatMap fun
    | .applyCatalogPhase phase => phase.actions
    | _ => []

/-- The units that were applied since the last phase. -/
def phaseUnits (calls : List (EpochCall C V)) : List (CompleteUnit C V) :=
  calls.foldl (fun units call => match call with
    | .applyUnits slice _ => units ++ slice
    | .applyCatalogPhase _ => []
    | _ => units) []

/-- The unit has rows in the spill store. -/
def HasStagedRows (spill : Spill C V) (commitId : ℕ) (unit : CompleteUnit C V) : Prop :=
  ∃ row ∈ spill, row.commitId = commitId ∧ unit.spillUnitSeq = some row.unitSeq

section

variable [DecidableEq C] [ToString C] (normalize : String → C) (commitId : ℕ)

/-- A unit that an action leaves for later is beyond its boundary, or it or an earlier unit of the
phase has the shape that the phase produces. -/
def BeforeActions (spill : Spill C V) (calls : List (EpochCall C V)) : Prop :=
  ∀ earlier phase later, calls = earlier ++ .applyCatalogPhase phase :: later →
    ∀ action ∈ phase.actions, ∀ first unit last, appliedUnits later = first ++ unit :: last →
      unit.lastLsn ≤ action.change.detectedLsn →
        ∃ u ∈ phaseUnits earlier ++ (first ++ [unit]),
          unitIsPostSchemaEpoch normalize spill u phase.actions commitId = .ok true

/-- **A group is applied around the schema actions.** -/
structure EpochApplied (spill : Spill C V) (group : List (CompleteUnit C V))
    (plan : Option CatalogPlan) (run : EpochRun C V) : Prop where
  unitsOnce : appliedUnits run.calls = group
  actionsOnce : (appliedActions run.calls).Perm
    ((plan.elim [] (·.actions)).filter (·.change.kind = .schemaChanged))
  boundaryOrder : (appliedActions run.calls).Pairwise
    fun a b => a.change.detectedLsn ≤ b.change.detectedLsn
  beforeActions : BeforeActions normalize commitId spill run.calls
  cleared : ∀ unit ∈ group, ¬ HasStagedRows run.spill commitId unit

/-! ### The condition -/

open SchemaEpochCoordinator

/-- A phase takes a unit: it is not beyond the boundary, and not post-fence. -/
def phaseAdmits (spill : Spill C V) (phase : List CatalogAction) (unit : CompleteUnit C V) : Bool :=
  unit.lastLsn ≤ boundaryOf phase &&
    match unitIsPostSchemaEpoch normalize spill unit phase commitId with
    | .ok answer => !answer
    | .error _ => false

/-- No unit that can be applied is refused: for no boundary does one that is not fenced show both
the columns before and the columns after the actions. -/
def NoneRefused (spill : Spill C V) (group : List (CompleteUnit C V))
    (phases : List (List CatalogAction)) : Prop :=
  ∀ phase ∈ phases, ∀ unit ∈ group, unit.fenced = false →
    refuseMixedSchemaEpoch normalize (eventsForSchemaCheck spill unit commitId) phase = .ok ()

/-- Among the units a phase starts with, one that is not beyond the boundary and comes after one
that is has a unit of the new shape at or before it. Units in the order of their positions are
such. -/
def InOrderFor (spill : Spill C V) (phase : List CatalogAction)
    (units : List (CompleteUnit C V)) : Prop :=
  ∀ first unit last, units = first ++ unit :: last → unit.lastLsn ≤ boundaryOf phase →
    (∃ u ∈ first, boundaryOf phase < u.lastLsn) →
      ∃ u ∈ first ++ [unit], unitIsPostSchemaEpoch normalize spill u phase commitId = .ok true

/-- The units are in order for every phase: the units a phase starts with are those after the
longest prefix that the earlier phases can share out. -/
def InOrderForPhases (spill : Spill C V) (group : List (CompleteUnit C V))
    (phases : List (List CatalogAction)) : Prop :=
  ∀ earlier phase later, phases = earlier ++ phase :: later → ∀ taken left, group = taken ++ left →
    LongestSliced (phaseAdmits normalize commitId spill) earlier taken left →
      InOrderFor normalize commitId spill phase left

/-- No unit has staged rows, or the phases can share out the whole group, or a staged unit comes
after what they can share out. -/
def SpillReached (spill : Spill C V) (group : List (CompleteUnit C V))
    (phases : List (List CatalogAction)) : Prop :=
  (∀ unit ∈ group, ¬ HasStagedRows spill commitId unit) ∨
    Sliced (phaseAdmits normalize commitId spill) phases group ∨
      ∃ first unit last, group = first ++ unit :: last ∧ unit.setsStaged = true ∧
        ¬ Sliced (phaseAdmits normalize commitId spill) phases (first ++ [unit])

/-! ### The phases -/

theorem boundaryOf_eq {actions phase : List CatalogAction} (h : phase ∈ phasesOf actions)
    {action : CatalogAction} (haction : action ∈ phase) :
    action.change.detectedLsn = boundaryOf phase := by
  have hchain := List.isChain_of_mem_splitBy h
  obtain _ | ⟨first, rest⟩ := phase
  · exact absurd haction (by simp)
  · have hpairwise : (first :: rest).Pairwise
        fun a b => a.change.detectedLsn = b.change.detectedLsn := by
      refine List.isChain_iff_pairwise.1 (hchain.imp fun a b hab => ?_)
      simpa using hab
    rcases List.mem_cons.1 haction with rfl | hrest
    · rfl
    · exact ((List.pairwise_cons.1 hpairwise).1 action hrest).symm

/-- A phase has actions, all of one boundary. -/
theorem phase_of_mem {actions phase : List CatalogAction} (h : phase ∈ phasesOf actions) :
    phase ≠ [] ∧ ∀ action ∈ phase, action.change.detectedLsn = boundaryOf phase :=
  ⟨List.ne_nil_of_mem_splitBy h, fun _ => boundaryOf_eq h⟩

theorem actionLe_trans (a b c : CatalogAction) (hab : actionLe a b = true)
    (hbc : actionLe b c = true) : actionLe a c = true := by
  simp only [actionLe, Bool.or_eq_true, decide_eq_true_eq, Bool.and_eq_true] at hab hbc ⊢
  rcases hab with hab | ⟨hab, hname⟩
  · left
    omega
  · rcases hbc with hbc | ⟨hbc, hname'⟩
    · left
      omega
    · exact Or.inr ⟨by omega, le_trans hname hname'⟩

theorem actionLe_total (a b : CatalogAction) : (actionLe a b || actionLe b a) = true := by
  simp only [actionLe, Bool.or_eq_true, decide_eq_true_eq, Bool.and_eq_true]
  rcases lt_trichotomy a.change.detectedLsn b.change.detectedLsn with h | h | h
  · exact Or.inl (Or.inl h)
  · rcases le_total a.change.qualified b.change.qualified with hname | hname
    · exact Or.inl (Or.inr ⟨h, hname⟩)
    · exact Or.inr (Or.inr ⟨h.symm, hname⟩)
  · exact Or.inr (Or.inl h)

theorem pairwise_schemaActions (plan : Option CatalogPlan) :
    (schemaActions plan).Pairwise fun a b => a.change.detectedLsn ≤ b.change.detectedLsn := by
  refine (List.pairwise_mergeSort actionLe_trans actionLe_total _).imp fun {a b} hab => ?_
  simp only [actionLe, Bool.or_eq_true, decide_eq_true_eq, Bool.and_eq_true] at hab
  omega

/-- The calls of the phases, when every unit can be classified. -/
def phaseCalls (spill : Spill C V) (plan : Option CatalogPlan) :
    List (List CatalogAction) → List (CompleteUnit C V) → List (EpochCall C V)
  | [], _ => []
  | phase :: phases, rest =>
    (if (rest.takeWhile (phaseAdmits normalize commitId spill phase)).isEmpty then []
      else [.applyUnits (rest.takeWhile (phaseAdmits normalize commitId spill phase)) false]) ++
    [.applyCatalogPhase (phasePlan plan phase), .backfillSchema (phasePlan plan phase)] ++
      phaseCalls spill plan phases (rest.dropWhile (phaseAdmits normalize commitId spill phase))

variable {normalize commitId} {spill : Spill C V} {group : List (CompleteUnit C V)}
  {plan : Option CatalogPlan}

/-- The units before the fence are those that the phase admits. -/
theorem unitsBefore_eq {phase : List CatalogAction} {rest : List (CompleteUnit C V)}
    (h : ∀ unit ∈ rest, ∃ answer,
      unitIsPostSchemaEpoch normalize spill unit phase commitId = .ok answer) :
    unitsBefore normalize commitId spill phase (rest.takeWhile (·.lastLsn ≤ boundaryOf phase)) =
      .ok (rest.takeWhile (phaseAdmits normalize commitId spill phase)) := by
  induction rest with
  | nil => rfl
  | cons unit rest ih =>
    rw [List.forall_mem_cons] at h
    obtain ⟨⟨answer, hanswer⟩, hrest⟩ := h
    by_cases hlsn : unit.lastLsn ≤ boundaryOf phase
    · rw [List.takeWhile_cons_of_pos (by simpa using hlsn), unitsBefore, hanswer]
      cases answer with
      | true =>
        rw [List.takeWhile_cons_of_neg (by simp [phaseAdmits, hanswer])]
        rfl
      | false =>
        rw [List.takeWhile_cons_of_pos (by simp [phaseAdmits, hanswer, hlsn])]
        simp only [bind, Except.bind, ih hrest]
        rfl
    · rw [List.takeWhile_cons_of_neg (by simpa using hlsn),
        List.takeWhile_cons_of_neg (by simp [phaseAdmits, hlsn])]
      rfl

/-- **The phases run to their end** exactly when no unit is refused. -/
theorem applyPhases_eq {phases : List (List CatalogAction)} :
    ∀ {rest : List (CompleteUnit C V)} {run : EpochRun C V}, rest ⊆ group → run.spill = spill →
      NoneRefused normalize commitId spill group phases →
      applyPhases normalize commitId plan group phases rest run =
        .ok (leftAfter (phaseAdmits normalize commitId spill) phases rest,
          { calls := run.calls ++ phaseCalls normalize commitId spill plan phases rest,
            spill }) := by
  induction phases with
  | nil =>
    rintro rest run _ rfl _
    simp [applyPhases, phaseCalls]
  | cons phase phases ih =>
    rintro rest run hrest rfl hrefused
    have hphase := hrefused phase List.mem_cons_self
    have hchecked : forM (group.filter (!·.fenced)) (fun unit => refuseMixedSchemaEpoch normalize
        (eventsForSchemaCheck run.spill unit commitId) phase) = Except.ok PUnit.unit := by
      refine forM_eq_ok_iff.2 fun unit hunit => ?_
      rw [List.mem_filter, Bool.not_eq_true'] at hunit
      exact hphase unit hunit.1 hunit.2
    have hbefore : unitsBefore normalize commitId run.spill phase
        (rest.takeWhile (·.lastLsn ≤ boundaryOf phase)) = _ :=
      unitsBefore_eq fun unit hunit => exists_unitIsPost (hphase unit (hrest hunit))
    have hrest' : rest.dropWhile (phaseAdmits normalize commitId run.spill phase) ⊆ group :=
      fun unit hunit => hrest (List.dropWhile_subset _ hunit)
    have hrefused' : NoneRefused normalize commitId run.spill group phases :=
      fun later hlater => hrefused later (List.mem_cons_of_mem _ hlater)
    rw [applyPhases, hchecked]
    simp only [bind, Except.bind, hbefore, drop_length_takeWhile]
    by_cases hslice : (rest.takeWhile (phaseAdmits normalize commitId run.spill phase)).isEmpty
    · rw [if_pos hslice]
      refine (ih hrest' ?_ hrefused').trans ?_
      · rfl
      · simp [phaseCalls, hslice]
    · rw [if_neg hslice]
      refine (ih hrest' ?_ hrefused').trans ?_
      · rfl
      · simp [phaseCalls, hslice, EpochRun.applyUnits]

/-- A refused unit stops the phases. -/
theorem noneRefused_of_applyPhases {phases : List (List CatalogAction)} :
    ∀ {rest : List (CompleteUnit C V)} {run : EpochRun C V}
      {result : List (CompleteUnit C V) × EpochRun C V}, run.spill = spill →
      applyPhases normalize commitId plan group phases rest run = .ok result →
        NoneRefused normalize commitId spill group phases := by
  induction phases with
  | nil =>
    rintro rest run result _ _ phase hphase
    exact absurd hphase (by simp)
  | cons phase phases ih =>
    rintro rest run result rfl h
    rw [applyPhases] at h
    obtain ⟨⟨⟩, hchecked, h⟩ := except_bind_eq_ok.1 h
    obtain ⟨slice, hslice, h⟩ := except_bind_eq_ok.1 h
    have hrest : NoneRefused normalize commitId run.spill group phases := by
      refine ih ?_ h
      by_cases hempty : slice.isEmpty
      · rw [if_pos hempty]
      · rw [if_neg hempty]
        rfl
    rintro later hlater unit hunit hfenced
    rcases List.mem_cons.1 hlater with rfl | hlater
    · exact forM_eq_ok_iff.1 hchecked unit (List.mem_filter.2 ⟨hunit, by simp [hfenced]⟩)
    · exact hrest later hlater unit hunit hfenced

/-! ### The calls, piece by piece -/

omit [DecidableEq C] [ToString C] in
@[simp] theorem appliedUnits_append (calls calls' : List (EpochCall C V)) :
    appliedUnits (calls ++ calls') = appliedUnits calls ++ appliedUnits calls' :=
  List.flatMap_append

omit [DecidableEq C] [ToString C] in
@[simp] theorem appliedActions_append (calls calls' : List (EpochCall C V)) :
    appliedActions (calls ++ calls') = appliedActions calls ++ appliedActions calls' :=
  List.flatMap_append

/-- The calls that apply a slice. -/
def sliceCalls (slice : List (CompleteUnit C V)) : List (EpochCall C V) :=
  if slice.isEmpty then [] else [.applyUnits slice false]

omit [DecidableEq C] [ToString C] in
theorem appliedUnits_sliceCalls (slice : List (CompleteUnit C V)) :
    appliedUnits (sliceCalls slice) = slice := by
  rw [sliceCalls]
  by_cases h : slice.isEmpty
  · rw [if_pos h, List.isEmpty_iff.1 h]
    rfl
  · rw [if_neg h]
    simp [appliedUnits]

omit [DecidableEq C] [ToString C] in
theorem appliedActions_sliceCalls (slice : List (CompleteUnit C V)) :
    appliedActions (sliceCalls slice) = [] := by
  rw [sliceCalls]
  split_ifs
  · rfl
  · rfl

omit [DecidableEq C] [ToString C] in
theorem phaseUnits_sliceCalls (slice : List (CompleteUnit C V)) :
    phaseUnits (sliceCalls slice) = slice := by
  rw [sliceCalls]
  by_cases h : slice.isEmpty
  · rw [if_pos h, List.isEmpty_iff.1 h]
    rfl
  · rw [if_neg h]
    simp [phaseUnits]

omit [DecidableEq C] [ToString C] in
theorem notMem_sliceCalls (slice : List (CompleteUnit C V)) (phase : CatalogPlan) :
    .applyCatalogPhase phase ∉ sliceCalls slice := by
  rw [sliceCalls]
  split_ifs
  · simp
  · simp

omit [DecidableEq C] [ToString C] in
/-- A phase forgets the units applied before it. -/
theorem phaseUnits_append_phase (calls calls' : List (EpochCall C V)) (phase : CatalogPlan) :
    phaseUnits (calls ++ .applyCatalogPhase phase :: calls') = phaseUnits calls' := by
  rw [phaseUnits, List.foldl_append, List.foldl_cons]
  rfl

theorem phaseCalls_cons (phase : List CatalogAction) (phases : List (List CatalogAction))
    (rest : List (CompleteUnit C V)) :
    phaseCalls normalize commitId spill plan (phase :: phases) rest =
      sliceCalls (rest.takeWhile (phaseAdmits normalize commitId spill phase)) ++
        .applyCatalogPhase (phasePlan plan phase) :: .backfillSchema (phasePlan plan phase) ::
          phaseCalls normalize commitId spill plan phases
            (rest.dropWhile (phaseAdmits normalize commitId spill phase)) := by
  simp [phaseCalls, sliceCalls]

theorem appliedUnits_phaseCalls (phases : List (List CatalogAction)) :
    ∀ rest : List (CompleteUnit C V),
      appliedUnits (phaseCalls normalize commitId spill plan phases rest) ++
        leftAfter (phaseAdmits normalize commitId spill) phases rest = rest := by
  induction phases with
  | nil => exact fun rest => rfl
  | cons phase phases ih =>
    intro rest
    rw [phaseCalls_cons, appliedUnits_append, appliedUnits_sliceCalls, leftAfter_cons,
      List.append_assoc]
    have hphase : ∀ calls : List (EpochCall C V), appliedUnits (.applyCatalogPhase
        (phasePlan plan phase) :: .backfillSchema (phasePlan plan phase) :: calls) =
          appliedUnits calls := fun calls => rfl
    rw [hphase, ih, List.takeWhile_append_dropWhile]

theorem appliedActions_phaseCalls (phases : List (List CatalogAction)) :
    ∀ rest : List (CompleteUnit C V),
      appliedActions (phaseCalls normalize commitId spill plan phases rest) = phases.flatten := by
  induction phases with
  | nil => exact fun rest => rfl
  | cons phase phases ih =>
    intro rest
    rw [phaseCalls_cons, appliedActions_append, appliedActions_sliceCalls, List.nil_append,
      List.flatten_cons, ← ih (rest.dropWhile (phaseAdmits normalize commitId spill phase))]
    rfl

/-! ### Units before actions -/

/-- The first phase of the calls, and the phases after it. -/
theorem beforeActions_phase_iff {before calls : List (EpochCall C V)} {phase : CatalogPlan}
    (hbefore : ∀ p, .applyCatalogPhase p ∉ before) :
    BeforeActions normalize commitId spill
        (before ++ .applyCatalogPhase phase :: .backfillSchema phase :: calls) ↔
      (∀ action ∈ phase.actions, ∀ first unit last, appliedUnits calls = first ++ unit :: last →
        unit.lastLsn ≤ action.change.detectedLsn → ∃ u ∈ phaseUnits before ++ (first ++ [unit]),
          unitIsPostSchemaEpoch normalize spill u phase.actions commitId = .ok true) ∧
      BeforeActions normalize commitId spill calls := by
  refine ⟨fun h => ⟨fun action haction first unit last hunits => ?_, ?_⟩, fun h => ?_⟩
  · exact h before phase (.backfillSchema phase :: calls) rfl action haction first unit last hunits
  · intro earlier p later hcalls action haction first unit last hunits hlsn
    have hunit := h (before ++ .applyCatalogPhase phase :: .backfillSchema phase :: earlier) p later
      (by simp [hcalls]) action haction first unit last hunits hlsn
    rw [phaseUnits_append_phase] at hunit
    exact hunit
  · intro earlier p later hcalls
    rcases List.append_eq_append_iff.1 hcalls with ⟨middle, rfl, hmiddle⟩ | ⟨middle, rfl, hmiddle⟩
    · obtain _ | ⟨call, middle⟩ := middle
      · obtain ⟨hphase, rfl⟩ := List.cons.inj hmiddle
        obtain rfl := EpochCall.applyCatalogPhase.inj hphase
        rw [List.append_nil]
        exact h.1
      · obtain ⟨rfl, hrest⟩ := List.cons.inj hmiddle
        obtain _ | ⟨call', middle⟩ := middle
        · exact absurd (List.cons.inj hrest).1 (by simp)
        · obtain ⟨rfl, hcalls'⟩ := List.cons.inj hrest
          rw [phaseUnits_append_phase]
          exact h.2 middle p later hcalls'
    · obtain _ | ⟨call, middle⟩ := middle
      · obtain ⟨hphase, rfl⟩ := List.cons.inj hmiddle
        obtain rfl := EpochCall.applyCatalogPhase.inj hphase
        rw [List.append_nil] at h
        exact h.1
      · obtain ⟨rfl, _⟩ := List.cons.inj hmiddle
        exact absurd (List.mem_append_right _ List.mem_cons_self) (hbefore p)

/-- A unit that a phase leaves is accounted for exactly when the units are in order for it. -/
theorem inOrderFor_iff {phase : List CatalogAction} {rest : List (CompleteUnit C V)}
    (hclassified : ∀ unit ∈ rest, ∃ answer,
      unitIsPostSchemaEpoch normalize spill unit phase commitId = .ok answer) :
    InOrderFor normalize commitId spill phase rest ↔
      ∀ first unit last, rest.dropWhile (phaseAdmits normalize commitId spill phase) =
          first ++ unit :: last → unit.lastLsn ≤ boundaryOf phase →
        ∃ u ∈ rest.takeWhile (phaseAdmits normalize commitId spill phase) ++ (first ++ [unit]),
          unitIsPostSchemaEpoch normalize spill u phase commitId = .ok true := by
  have hsplit := List.takeWhile_append_dropWhile (p := phaseAdmits normalize commitId spill phase)
    (l := rest)
  refine ⟨fun h first unit last hleft hlsn => ?_, fun h first unit last hrest hlsn hbeyond => ?_⟩
  · rw [← List.append_assoc]
    -- The first unit that is left is beyond the boundary or has the new shape.
    obtain ⟨head, rest', hhead⟩ : ∃ head rest', first ++ [unit] = head :: rest' := by
      obtain _ | ⟨head, rest'⟩ := first
      · exact ⟨unit, [], rfl⟩
      · exact ⟨head, rest' ++ [unit], rfl⟩
    have hdrop : rest.dropWhile (phaseAdmits normalize commitId spill phase) =
        head :: (rest' ++ last) := by
      rw [hleft, ← List.cons_append, ← hhead, List.append_assoc]
      rfl
    have hmem : head ∈ rest := List.dropWhile_subset _ (hdrop ▸ List.mem_cons_self)
    have hnot : phaseAdmits normalize commitId spill phase head = false := by
      have hfirst := List.head?_dropWhile_not (phaseAdmits normalize commitId spill phase) rest
      rw [hdrop] at hfirst
      simpa using hfirst
    obtain ⟨answer, hanswer⟩ := hclassified head hmem
    cases answer with
    | true =>
      refine ⟨head, ?_, hanswer⟩
      rw [List.append_assoc, hhead]
      exact List.mem_append_right _ List.mem_cons_self
    | false =>
      have hbeyond : boundaryOf phase < head.lastLsn := by
        simpa [phaseAdmits, hanswer] using hnot
      refine h (rest.takeWhile (phaseAdmits normalize commitId spill phase) ++ first) unit last
        ?_ hlsn ⟨head, ?_, hbeyond⟩
      · rw [List.append_assoc, ← hleft, hsplit]
      · refine List.mem_append_right _ ?_
        have hin : head ∈ first ++ [unit] := hhead ▸ List.mem_cons_self
        rcases List.mem_append.1 hin with hin | hin
        · exact hin
        · rw [List.mem_singleton.1 hin] at hbeyond
          omega
  · -- The unit beyond the boundary is not taken, so the slice ends before it.
    obtain ⟨u, hu, hlt⟩ := hbeyond
    have hslice : rest.takeWhile (phaseAdmits normalize commitId spill phase) <+: first := by
      refine (List.prefix_or_prefix_of_prefix (List.takeWhile_prefix _)
        ⟨unit :: last, hrest.symm⟩).resolve_right fun hfirst => ?_
      have hadmits := List.mem_takeWhile_imp (hfirst.subset hu)
      simp only [phaseAdmits, Bool.and_eq_true, decide_eq_true_eq] at hadmits
      omega
    obtain ⟨first', rfl⟩ := hslice
    have hleft : rest.dropWhile (phaseAdmits normalize commitId spill phase) =
        first' ++ unit :: last := by
      rw [List.append_assoc] at hrest
      exact List.append_cancel_left (hsplit.trans hrest)
    rw [List.append_assoc]
    exact h first' unit last hleft hlsn

/-- **Units before actions**, phase by phase. -/
theorem beforeActions_phaseCalls_iff {phases : List (List CatalogAction)}
    {tail : List (EpochCall C V)} (htail : ∀ p, .applyCatalogPhase p ∉ tail) :
    ∀ {rest : List (CompleteUnit C V)},
      (∀ phase ∈ phases, phase ≠ [] ∧ ∀ action ∈ phase,
        action.change.detectedLsn = boundaryOf phase) →
      (∀ phase ∈ phases, ∀ unit ∈ rest, ∃ answer,
        unitIsPostSchemaEpoch normalize spill unit phase commitId = .ok answer) →
      appliedUnits tail = leftAfter (phaseAdmits normalize commitId spill) phases rest →
      (BeforeActions normalize commitId spill
          (phaseCalls normalize commitId spill plan phases rest ++ tail) ↔
        ∀ earlier phase later, phases = earlier ++ phase :: later →
          InOrderFor normalize commitId spill phase
            (leftAfter (phaseAdmits normalize commitId spill) earlier rest)) := by
  induction phases with
  | nil =>
    intro rest _ _ _
    refine iff_of_true (fun earlier p later hcalls => ?_) fun earlier phase later hphases =>
      absurd hphases (by simp)
    have hcalls' : tail = earlier ++ .applyCatalogPhase p :: later := hcalls
    rw [hcalls'] at htail
    exact absurd (List.mem_append_right _ List.mem_cons_self) (htail p)
  | cons phase phases ih =>
    intro rest hboundary hclassified hunits
    rw [List.forall_mem_cons] at hboundary hclassified
    rw [leftAfter_cons] at hunits
    have hrest := ih hboundary.2 (fun p hp unit hunit => hclassified.2 p hp unit
      (List.dropWhile_subset _ hunit)) hunits
    have happlied : appliedUnits (phaseCalls normalize commitId spill plan phases
        (rest.dropWhile (phaseAdmits normalize commitId spill phase)) ++ tail) =
          rest.dropWhile (phaseAdmits normalize commitId spill phase) := by
      rw [appliedUnits_append, hunits, appliedUnits_phaseCalls]
    have hfirst : (∀ action ∈ phase, ∀ first unit last,
          rest.dropWhile (phaseAdmits normalize commitId spill phase) = first ++ unit :: last →
          unit.lastLsn ≤ action.change.detectedLsn →
          ∃ u ∈ rest.takeWhile (phaseAdmits normalize commitId spill phase) ++ (first ++ [unit]),
            unitIsPostSchemaEpoch normalize spill u phase commitId = .ok true) ↔
        InOrderFor normalize commitId spill phase rest := by
      rw [inOrderFor_iff hclassified.1]
      obtain ⟨action, haction⟩ := List.exists_mem_of_ne_nil phase hboundary.1.1
      refine ⟨fun h => hboundary.1.2 action haction ▸ h action haction, fun h action haction => ?_⟩
      rw [hboundary.1.2 action haction]
      exact h
    rw [phaseCalls_cons, List.append_assoc, List.cons_append, List.cons_append,
      beforeActions_phase_iff (notMem_sliceCalls _), happlied, phaseUnits_sliceCalls, hrest]
    refine (and_congr_left' hfirst).trans ⟨fun h earlier p later hphases => ?_, fun h => ⟨?_, ?_⟩⟩
    · obtain _ | ⟨p', earlier⟩ := earlier
      · obtain ⟨rfl, _⟩ := List.cons.inj hphases
        exact h.1
      · obtain ⟨rfl, hphases'⟩ := List.cons.inj hphases
        exact h.2 earlier p later hphases'
    · exact h [] phase phases rfl
    · intro earlier p later hphases
      exact h (phase :: earlier) p later (by rw [hphases]; rfl)

/-! ### Assembly -/

omit [DecidableEq C] [ToString C] in
theorem not_hasStagedRows_clear (unit : CompleteUnit C V) :
    ¬ HasStagedRows (spill.clear commitId) commitId unit := by
  rintro ⟨row, hrow, hcommit, _⟩
  rw [Spill.clear, List.mem_filter] at hrow
  exact absurd hcommit (by simpa using hrow.2)

/-- The spill store is cleared at the end: the units that are left hold a staged one, or none is
left and the group holds one. -/
def clearsSpill (group left : List (CompleteUnit C V)) : Bool :=
  left.any CompleteUnit.setsStaged || left.isEmpty && group.any (·.spillUnitSeq.isSome)

/-- **What a call returns** when no unit is refused. -/
theorem exists_apply_eq (h : NoneRefused normalize commitId spill group
      (phasesOf (schemaActions plan))) :
    ∃ run tail, apply normalize commitId spill group plan = .ok run ∧
      run.calls = phaseCalls normalize commitId spill plan (phasesOf (schemaActions plan)) group ++
        tail ∧
      (∀ p, .applyCatalogPhase p ∉ tail) ∧ appliedActions tail = [] ∧
      appliedUnits tail = leftAfter (phaseAdmits normalize commitId spill)
        (phasesOf (schemaActions plan)) group ∧
      run.spill = if clearsSpill group (leftAfter (phaseAdmits normalize commitId spill)
        (phasesOf (schemaActions plan)) group) then spill.clear commitId else spill := by
  rw [apply]
  by_cases hactions : (schemaActions plan).isEmpty
  · rw [if_pos hactions, List.isEmpty_iff.1 hactions]
    refine ⟨_, [.applyUnits group true], rfl, rfl, by simp, rfl, by simp [appliedUnits, phasesOf],
      ?_⟩
    cases group with
    | nil => rfl
    | cons unit units => simp [EpochRun.applyUnits, clearsSpill, phasesOf]
  rw [if_neg hactions, applyPhases_eq (List.Subset.refl group) rfl h]
  simp only [bind, Except.bind, List.nil_append]
  generalize hleft : leftAfter (phaseAdmits normalize commitId spill)
    (phasesOf (schemaActions plan)) group = left
  cases left with
  | nil =>
    by_cases hstaged : group.any (·.spillUnitSeq.isSome)
    · rw [if_neg (by simp), if_pos hstaged]
      exact ⟨_, [.clearSpill], rfl, rfl, by simp, rfl, rfl, by simp [clearsSpill, hstaged]⟩
    · rw [if_neg (by simp), if_neg hstaged]
      exact ⟨_, [], rfl, by simp, by simp, rfl, rfl, by simp [clearsSpill, hstaged]⟩
  | cons unit units =>
    rw [if_pos (by simp)]
    exact ⟨_, [.applyUnits (unit :: units) true], rfl, rfl, by simp, rfl, by simp [appliedUnits],
      by simp [EpochRun.applyUnits, clearsSpill]⟩

/-- The rows of the group are cleared exactly when a staged unit is reached. -/
theorem cleared_iff {phases : List (List CatalogAction)} :
    (∀ unit ∈ group, ¬ HasStagedRows (if clearsSpill group (leftAfter (phaseAdmits normalize
        commitId spill) phases group) then spill.clear commitId else spill) commitId unit) ↔
      SpillReached normalize commitId spill group phases := by
  obtain ⟨taken, htaken, hsliced⟩ :=
    exists_sliced_leftAfter (phaseAdmits normalize commitId spill) phases group
  generalize hleft :
    leftAfter (phaseAdmits normalize commitId spill) phases group = left at htaken ⊢
  have hfurthest : ∀ {part}, part <+: group →
      Sliced (phaseAdmits normalize commitId spill) phases part → part <+: taken :=
    fun {part} hpart hcut => hcut.prefix_of_leftAfter (hleft ▸ htaken) hpart
  by_cases hclears : clearsSpill group left
  · rw [if_pos hclears]
    refine iff_of_true (fun unit _ => not_hasStagedRows_clear unit) ?_
    simp only [clearsSpill, Bool.or_eq_true, List.any_eq_true, Bool.and_eq_true,
      List.isEmpty_iff] at hclears
    rcases hclears with ⟨unit, hunit, hstaged⟩ | ⟨rfl, _⟩
    · obtain ⟨first, last, rfl⟩ := List.append_of_mem hunit
      refine Or.inr (Or.inr ⟨taken ++ first, unit, last, by rw [htaken, List.append_assoc], hstaged,
        fun hcut => ?_⟩)
      have hlength := (hfurthest ⟨last, by simp [htaken]⟩ hcut).length_le
      simp at hlength
    · rw [List.append_nil] at htaken
      exact Or.inr (Or.inl (htaken ▸ hsliced))
  · rw [if_neg hclears]
    simp only [clearsSpill, Bool.or_eq_true, List.any_eq_true, Bool.and_eq_true,
      List.isEmpty_iff, not_or, not_and, not_exists] at hclears
    refine ⟨Or.inl, ?_⟩
    rintro (hrows | hcut | ⟨first, unit, last, hgroup, hstaged, hcut⟩)
    · exact hrows
    · obtain rfl : left = [] := by
        have hlength := (hfurthest (List.prefix_refl group) hcut).length_le
        have hgroup := congrArg List.length htaken
        rw [List.length_append] at hgroup
        exact List.length_eq_zero_iff.1 (by omega)
      rintro unit hunit ⟨row, _, _, hseq⟩
      exact hclears.2 rfl unit hunit (by rw [hseq]; rfl)
    · -- The staged unit is not among the units taken, so it is left.
      have htaken' : taken <+: first := by
        rcases List.prefix_or_prefix_of_prefix ⟨left, htaken.symm⟩
            (show first ++ [unit] <+: group from ⟨last, by simp [hgroup]⟩) with hshort | hlong
        · rcases List.prefix_concat_iff.1 hshort with rfl | hshort
          · exact absurd hsliced hcut
          · exact hshort
        · obtain ⟨more, rfl⟩ := hlong
          exact absurd hsliced.left_of_append hcut
      obtain ⟨more, rfl⟩ := htaken'
      rw [htaken, List.append_assoc, List.append_cancel_left_eq] at hgroup
      exact absurd hstaged (hclears.1 unit (hgroup ▸ by simp))

variable (normalize commitId spill group plan) in
/-- **A group is applied around the schema actions** exactly when no unit is refused, the units are
in order for the phases, and a staged unit is reached by the end. -/
theorem epochApplied_iff :
    (∃ run, apply normalize commitId spill group plan = .ok run ∧
      EpochApplied normalize commitId spill group plan run) ↔
    NoneRefused normalize commitId spill group (phasesOf (schemaActions plan)) ∧
      InOrderForPhases normalize commitId spill group (phasesOf (schemaActions plan)) ∧
      SpillReached normalize commitId spill group (phasesOf (schemaActions plan)) := by
  by_cases hrefused : NoneRefused normalize commitId spill group (phasesOf (schemaActions plan))
  · rw [and_iff_right hrefused]
    obtain ⟨run, tail, hrun, hcalls, htail, hactions, hunits, hspill⟩ := exists_apply_eq hrefused
    have hbefore : BeforeActions normalize commitId spill run.calls ↔
        InOrderForPhases normalize commitId spill group (phasesOf (schemaActions plan)) := by
      rw [hcalls, beforeActions_phaseCalls_iff htail (fun phase => phase_of_mem)
        (fun phase hphase unit hunit =>
          exists_unitIsPost (hrefused phase hphase unit hunit)) hunits]
      constructor
      · intro h earlier phase later hphases taken left hgroup hlongest
        rw [(longestSliced_iff hgroup).1 hlongest]
        exact h earlier phase later hphases
      · intro h earlier phase later hphases
        obtain ⟨taken, hgroup, _⟩ :=
          exists_sliced_leftAfter (phaseAdmits normalize commitId spill) earlier group
        exact h earlier phase later hphases taken _ hgroup ((longestSliced_iff hgroup).2 rfl)
    have hcleared : (∀ unit ∈ group, ¬ HasStagedRows run.spill commitId unit) ↔
        SpillReached normalize commitId spill group (phasesOf (schemaActions plan)) := by
      rw [hspill]
      exact cleared_iff
    have happlied : appliedActions run.calls = schemaActions plan := by
      rw [hcalls, appliedActions_append, appliedActions_phaseCalls, hactions, List.append_nil]
      exact List.flatten_splitBy _ _
    rw [← hbefore, ← hcleared]
    constructor
    · rintro ⟨run', hrun', happly⟩
      obtain rfl : run = run' := Except.ok.inj (hrun.symm.trans hrun')
      exact ⟨happly.beforeActions, happly.cleared⟩
    · rintro ⟨hactions', hrows⟩
      refine ⟨run, hrun, ?_, ?_, ?_, hactions', hrows⟩
      · rw [hcalls, appliedUnits_append, hunits, appliedUnits_phaseCalls]
      · rw [happlied]
        exact List.mergeSort_perm _ _
      · rw [happlied]
        exact pairwise_schemaActions plan
  · refine iff_of_false ?_ fun h => hrefused h.1
    rintro ⟨run, hrun, _⟩
    rw [apply] at hrun
    by_cases hactions : (schemaActions plan).isEmpty
    · refine hrefused fun phase hphase => ?_
      rw [List.isEmpty_iff.1 hactions] at hphase
      exact absurd hphase (by simp [phasesOf])
    · rw [if_neg hactions] at hrun
      obtain ⟨result, hphases, _⟩ := except_bind_eq_ok.1 hrun
      exact hrefused (noneRefused_of_applyPhases rfl hphases)

/-- Units in the order of their positions are in order for every phase. -/
theorem inOrderForPhases_of_pairwise {phases : List (List CatalogAction)}
    (h : (group.map CompleteUnit.lastLsn).Pairwise (· ≤ ·)) :
    InOrderForPhases normalize commitId spill group phases := by
  rintro earlier phase later _ taken left rfl _ first unit last rfl hlsn ⟨u, hu, hlt⟩
  rw [List.map_append, List.map_append, List.map_cons] at h
  have hle := (List.pairwise_append.1 (List.pairwise_append.1 h).2.1).2.2 u.lastLsn
    (List.mem_map_of_mem hu) unit.lastLsn List.mem_cons_self
  omega

end

namespace Accounts

open SchemaEpochCoordinator

/-- A column is added to the accounts. -/
def addNote : CatalogPlan where
  actions := [{ change :=
    { kind := .schemaChanged, schema := "public", table := "accounts", detectedLsn := 200
      columnChanges := [{ kind := .added, attnum := 2, newName := some "note" }] } }]

/-- A transaction whose events are staged, before the column is added, and one after it. -/
def stagedFirst : List (CompleteUnit String String) :=
  [{ kind := .txn, lastLsn := 100, spilled := true, spilledEvents := 1, spillUnitSeq := some 0 },
    { kind := .txn, lastLsn := 300 }]

/-- The staged insert of an account. -/
def stagedInsert : Spill String String :=
  [{ commitId := 7, unitSeq := 0
     staged :=
      { event :=
          { kind := .data, op := some .create, schema := some "public", table := some "accounts"
            key := some ((∅ : Image String String).set "id" (some "1"))
            after := some ((∅ : Image String String).set "id" (some "1")) }
        eventId := "1", target := "accounts", seq := some 1 } }]

/-- The staged rows outlive the group: the transaction that is applied last is not staged. -/
theorem stagedFirst_not_epochApplied :
    ¬ ∃ run, apply id 7 stagedInsert stagedFirst (some addNote) = .ok run ∧
      EpochApplied id 7 stagedInsert stagedFirst (some addNote) run := by
  rintro ⟨run, hrun, happlied⟩
  have hrows : (apply id 7 stagedInsert stagedFirst (some addNote)).toOption.all (fun run =>
      run.spill.any fun row => row.commitId = 7 ∧ row.unitSeq = 0) = true := by decide +kernel
  rw [hrun] at hrows
  obtain ⟨row, hrow, hkey⟩ := List.any_eq_true.1 hrows
  obtain ⟨hcommit, hseq⟩ := of_decide_eq_true hkey
  exact happlied.cleared _ List.mem_cons_self ⟨row, hrow, hcommit, congrArg some hseq.symm⟩

end Accounts

end CdcFlight
