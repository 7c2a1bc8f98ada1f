import CdcFlight.Lib.Attempts

/-!
# The containment retry

When the write of one relation fails, `commit_group` rolls the group back, records the refusal and
runs again with that relation excluded. Two sets carry the exclusion: `excluded_tables`, which holds
the relation of the last failure only, and `blocked_schema_tables`, which keeps them all and which
the planner consults for events outside a snapshot only.

A group is reduced to the events that reach a table's fold, in source order, one list for each plan
of the attempt; a relation has one item in a plan. A group holds snapshot units or streaming units,
never both. Events beyond the spill threshold were staged in the group's own transaction, before the
first attempt; its ROLLBACK takes them away, and the retries meet the events in memory only.

## Main definitions

* `CdcFlight.PlannedGroup`, `CdcFlight.Exclusions`: what an attempt plans, and what it leaves out.
* `CdcFlight.PlannedGroup.collect`, `CdcFlight.PlannedGroup.applyPlans`: an attempt.
* `CdcFlight.PlannedGroup.contain`: an attempt with its containment handler.
* `CdcFlight.PlannedGroup.RetryEnds`: the retry ends in time and excludes what failed before.

## Main results

* `CdcFlight.PlannedGroup.retryEnds_of_streaming`: outside a snapshot the retry ends.
* `CdcFlight.PlannedGroup.retry_never_ends`: two failing relations of a snapshot alternate for ever.
* `CdcFlight.PlannedGroup.retryEnds_iff`: when the retry ends.
-/

namespace CdcFlight

open Lib

variable {ρ : Type} [DecidableEq ρ]

/-- A row event of a group: its relation, and whether it was staged in the transaction of the
group. -/
structure PlannedEvent (ρ : Type) where
  relation : ρ
  staged : Bool := false
deriving DecidableEq

/-- A commit group, as the planner meets it. -/
structure PlannedGroup (ρ : Type) where
  /-- `OpenGroup.is_snapshot`: every row event comes with a snapshot state. -/
  isSnapshot : Bool
  /-- The row events, plan by plan. -/
  plans : List (List (PlannedEvent ρ))
  /-- `ignored_source_tables`. -/
  ignoredTables : List ρ := []
  /-- `alerts.independent`: there is a sink outside the destination transaction. -/
  independent : Bool := true

/-- What the applier leaves out of an attempt. -/
structure Exclusions (ρ : Type) where
  blockedSchemaTables : List ρ := []
  /-- `OpenGroup.held_tables`. -/
  heldTables : List ρ := []
  /-- `_excluded_destination_tables`. -/
  excludedTables : List ρ := []
  /-- The transaction that held the staged rows was rolled back. -/
  stagedLost : Bool := false
deriving DecidableEq

/-- The fold of a plan: the relations contained while folding and the relations with an item. -/
structure PlanFold (ρ : Type) where
  contained : List ρ := []
  work : List ρ := []

/-- What an attempt did: the relations that had an item in its plans, the relation whose write
failed, and the exclusions as it left them. -/
structure Attempt (ρ : Type) where
  work : List ρ
  failed : Option ρ
  exclusions : Exclusions ρ

omit [DecidableEq ρ] in
/-- The relations of the events that an attempt meets in a plan: `spill.load` finds nothing of what
was staged in a transaction that was rolled back. -/
def Exclusions.events (x : Exclusions ρ) (plan : List (PlannedEvent ρ)) : List ρ :=
  (plan.filter fun e => !(x.stagedLost && e.staged)).map PlannedEvent.relation

namespace PlannedGroup

variable (g : PlannedGroup ρ) (F : Finset ρ)

/-- `GroupPlan._collect`, for an event of a relation; `mark_blocked_event` takes the relation's item
out of the plan. -/
def collect (x : Exclusions ρ) (p : PlanFold ρ) (q : ρ) : PlanFold ρ :=
  if q ∈ g.ignoredTables then p
  else if q ∈ p.contained then p
  else if q ∈ x.excludedTables then p
  else if g.isSnapshot = false ∧ q ∈ x.blockedSchemaTables ++ x.heldTables then
    { contained := p.contained ++ [q], work := p.work.filter (· ≠ q) }
  else if q ∈ p.work then p
  else { p with work := p.work ++ [q] }

/-- The fold of the events of one plan. -/
def fold (x : Exclusions ρ) (plan : List (PlannedEvent ρ)) : PlanFold ρ :=
  (x.events plan).foldl (g.collect x) {}

/-- `apply_units`, plan by plan: the items are written in the order of their first event, and the
write of a relation in `F` fails. A contained relation is blocked from then on. -/
def applyPlans (x : Exclusions ρ) : List (List (PlannedEvent ρ)) → Attempt ρ
  | [] => ⟨[], none, x⟩
  | plan :: plans =>
    let p := g.fold x plan
    let x' := { x with blockedSchemaTables := x.blockedSchemaTables ++ p.contained }
    match p.work.find? (· ∈ F) with
    | some q => ⟨p.work, some q, x'⟩
    | none =>
      let rest := applyPlans x' plans
      { rest with work := p.work ++ rest.work }

/-- `commit_group` with the handler of a failed write: without an independent sink the error is
raised, else the refusal blocks the relation, the group is rebuilt without its held relations, and
the retry excludes the relation that failed. The rollback took the staged rows. -/
def contain (x : Exclusions ρ) : Option (ρ × Exclusions ρ) :=
  let attempt := g.applyPlans F x g.plans
  match attempt.failed with
  | none => none
  | some q =>
    if g.independent then some (q,
      { blockedSchemaTables := attempt.exclusions.blockedSchemaTables ++ [q]
        excludedTables := [q]
        stagedLost := true })
    else none

/-- A relation has row events in the memory of the group that are not ignored. -/
def FoldsInMemory (q : ρ) : Prop :=
  q ∉ g.ignoredTables ∧ ∃ plan ∈ g.plans, ∃ e ∈ plan, e.staged = false ∧ e.relation = q

/-- **The retry ends in time**: at most one attempt for each failing relation and one more, and no
attempt has an item of a relation that failed in an attempt before it. -/
structure RetryEnds (x₀ : Exclusions ρ) : Prop where
  ends : stateAt (g.contain F) x₀ (F.card + 1) = none
  excludes : ∀ m n q x, m < n → failureAt (g.contain F) x₀ m = some q →
    stateAt (g.contain F) x₀ n = some x → q ∉ (g.applyPlans F x g.plans).work

variable {g F} {x : Exclusions ρ}

/-! ### A plan -/

omit [DecidableEq ρ] in
/-- What was not staged is met by every attempt. -/
theorem mem_events_of_memory (x : Exclusions ρ) {plan : List (PlannedEvent ρ)}
    {e : PlannedEvent ρ} (he : e ∈ plan) (hmemory : e.staged = false) :
    e.relation ∈ x.events plan :=
  List.mem_map_of_mem (List.mem_filter.2 ⟨he, by simp [hmemory]⟩)

omit [DecidableEq ρ] in
/-- After a rollback nothing else is met. -/
theorem mem_events_of_lost (hlost : x.stagedLost = true) {plan : List (PlannedEvent ρ)} {q : ρ}
    (h : q ∈ x.events plan) : ∃ e ∈ plan, e.staged = false ∧ e.relation = q := by
  obtain ⟨e, he, rfl⟩ := List.mem_map.1 h
  obtain ⟨he, hmet⟩ := List.mem_filter.1 he
  exact ⟨e, he, by simpa [hlost] using hmet, rfl⟩

/-- What has an item was not left out. -/
theorem mem_work_foldl {events : List ρ} {q : ρ} (h : q ∈ (events.foldl (g.collect x) {}).work) :
    q ∈ events ∧ q ∉ g.ignoredTables ∧ q ∉ x.excludedTables ∧
      (g.isSnapshot = false → q ∉ x.blockedSchemaTables ++ x.heldTables) := by
  induction events using List.reverseRecOn with
  | nil => simp at h
  | append_singleton events r ih =>
    have hkeep : q ∈ (events.foldl (g.collect x) {}).work → q ∈ events ++ [r] ∧
        q ∉ g.ignoredTables ∧ q ∉ x.excludedTables ∧
        (g.isSnapshot = false → q ∉ x.blockedSchemaTables ++ x.heldTables) := fun hq =>
      ⟨List.mem_append_left _ (ih hq).1, (ih hq).2⟩
    rw [List.foldl_append, List.foldl_cons, List.foldl_nil, collect] at h
    split_ifs at h with hignored hcontained hexcluded hblocked hwork
    · exact hkeep h
    · exact hkeep h
    · exact hkeep h
    · exact hkeep (List.mem_of_mem_filter h)
    · exact hkeep h
    · rcases List.mem_append.1 h with h | h
      · exact hkeep h
      · rw [List.mem_singleton.1 h]
        exact ⟨by simp, hignored, hexcluded, fun hstream hin => hblocked ⟨hstream, hin⟩⟩

/-- In a snapshot nothing is contained. -/
theorem contained_foldl_of_snapshot (h : g.isSnapshot = true) (events : List ρ) :
    (events.foldl (g.collect x) {}).contained = [] := by
  induction events using List.reverseRecOn with
  | nil => rfl
  | append_singleton events r ih =>
    rw [List.foldl_append, List.foldl_cons, List.foldl_nil, collect]
    split_ifs with hignored hcontained hexcluded hblocked hwork
    · exact ih
    · exact ih
    · exact ih
    · simp [h] at hblocked
    · exact ih
    · exact ih

/-- In a snapshot every relation that is not ignored or excluded has an item. -/
theorem mem_work_foldl_of_snapshot (h : g.isSnapshot = true) {events : List ρ} {q : ρ}
    (hq : q ∈ events) (hignored : q ∉ g.ignoredTables) (hexcluded : q ∉ x.excludedTables) :
    q ∈ (events.foldl (g.collect x) {}).work := by
  induction events using List.reverseRecOn with
  | nil => simp at hq
  | append_singleton events r ih =>
    have hcontained := contained_foldl_of_snapshot (x := x) h events
    have hold (hin : q ∈ events) : q ∈ ((events ++ [r]).foldl (g.collect x) {}).work := by
      rw [List.foldl_append, List.foldl_cons, List.foldl_nil, collect]
      split_ifs with _ _ _ hblocked
      · exact ih hin
      · exact ih hin
      · exact ih hin
      · simp [h] at hblocked
      · exact ih hin
      · exact List.mem_append_left _ (ih hin)
    rcases List.mem_append.1 hq with hin | hin
    · exact hold hin
    · obtain rfl := List.mem_singleton.1 hin
      rw [List.foldl_append, List.foldl_cons, List.foldl_nil, collect,
        if_neg hignored, if_neg (by simp [hcontained]), if_neg hexcluded, if_neg (by simp [h])]
      split_ifs with hwork
      · exact hwork
      · simp

/-! ### An attempt -/

/-- What an attempt keeps: exclusions grow, and nothing left out has an item. -/
theorem applyPlans_spec (plans : List (List (PlannedEvent ρ))) (x : Exclusions ρ) :
    (∀ q ∈ (g.applyPlans F x plans).work, (∃ plan ∈ plans, q ∈ x.events plan) ∧
      q ∉ g.ignoredTables ∧ q ∉ x.excludedTables ∧
      (g.isSnapshot = false → q ∉ x.blockedSchemaTables ++ x.heldTables)) ∧
    (∀ q ∈ x.blockedSchemaTables,
      q ∈ (g.applyPlans F x plans).exclusions.blockedSchemaTables) ∧
    ∀ q, (g.applyPlans F x plans).failed = some q →
      q ∈ F ∧ q ∈ (g.applyPlans F x plans).work := by
  induction plans generalizing x with
  | nil => simp [applyPlans]
  | cons plan plans ih =>
    rw [applyPlans]
    dsimp only
    split
    · next q hfind =>
      refine ⟨fun r hr => ?_, fun r hr => List.mem_append_left _ hr, fun r hr => ?_⟩
      · obtain ⟨hin, hrest⟩ := mem_work_foldl hr
        exact ⟨⟨plan, List.mem_cons_self, hin⟩, hrest⟩
      · obtain rfl := Option.some.inj hr
        exact ⟨by simpa using List.find?_some hfind, List.mem_of_find?_eq_some hfind⟩
    · obtain ⟨hwork, hblocked, hfailed⟩ :=
        ih { x with blockedSchemaTables := x.blockedSchemaTables ++ (g.fold x plan).contained }
      refine ⟨fun r hr => ?_, fun r hr => hblocked r (List.mem_append_left _ hr), fun r hr =>
        ⟨(hfailed r hr).1, List.mem_append_right _ (hfailed r hr).2⟩⟩
      rcases List.mem_append.1 hr with hr | hr
      · obtain ⟨hin, hrest⟩ := mem_work_foldl hr
        exact ⟨⟨plan, List.mem_cons_self, hin⟩, hrest⟩
      · obtain ⟨⟨plan', hplan', hin⟩, hignored, hexcluded, hnot⟩ := hwork r hr
        refine ⟨⟨plan', List.mem_cons_of_mem _ hplan', hin⟩, hignored, hexcluded,
          fun hstream hin' => hnot hstream ?_⟩
        rcases List.mem_append.1 hin' with hin' | hin'
        · exact List.mem_append_left _ (List.mem_append_left _ hin')
        · exact List.mem_append_right _ hin'

/-- In a snapshot an attempt fails while a failing relation in memory is not excluded. -/
theorem failed_isSome_of_snapshot (h : g.isSnapshot = true)
    (plans : List (List (PlannedEvent ρ))) (x : Exclusions ρ) {q : ρ} (hF : q ∈ F)
    (hq : ∃ plan ∈ plans, ∃ e ∈ plan, e.staged = false ∧ e.relation = q)
    (hignored : q ∉ g.ignoredTables) (hexcluded : q ∉ x.excludedTables) :
    (g.applyPlans F x plans).failed.isSome := by
  induction plans generalizing x with
  | nil => simp at hq
  | cons plan plans ih =>
    rw [applyPlans]
    dsimp only
    split
    · rfl
    · next hfind =>
      refine ih _ ?_ hexcluded
      obtain ⟨plan', hplan', e, he, hmemory, hrelation⟩ := hq
      rcases List.mem_cons.1 hplan' with rfl | hplan'
      · have hwork : q ∈ (g.fold x plan').work := mem_work_foldl_of_snapshot h
          (hrelation ▸ mem_events_of_memory x he hmemory) hignored hexcluded
        exact absurd (decide_eq_true hF) (List.find?_eq_none.1 hfind q hwork)
      · exact ⟨plan', hplan', e, he, hmemory, hrelation⟩

/-- The attempt after a failure. -/
theorem contain_eq_some_iff {q : ρ} {x' : Exclusions ρ} : g.contain F x = some (q, x') ↔
    g.independent = true ∧ (g.applyPlans F x g.plans).failed = some q ∧
      x' = { blockedSchemaTables := (g.applyPlans F x g.plans).exclusions.blockedSchemaTables ++ [q]
             excludedTables := [q]
             stagedLost := true } := by
  rw [contain]
  cases hfailed : (g.applyPlans F x g.plans).failed with
  | none => simp
  | some r =>
    by_cases hsink : g.independent = true
    · simp only [hsink, if_true, Option.some.injEq, Prod.mk.injEq, true_and]
      constructor
      · rintro ⟨rfl, rfl⟩
        exact ⟨rfl, rfl⟩
      · rintro ⟨rfl, rfl⟩
        exact ⟨rfl, rfl⟩
    · simp [hsink]

/-! ### The chain of attempts -/

variable {x₀ : Exclusions ρ}

/-- What fails is one of the failing relations, with an item in the attempt. -/
theorem work_of_failureAt {n : ℕ} {q : ρ} (h : failureAt (g.contain F) x₀ n = some q) :
    q ∈ F ∧ ∃ x, stateAt (g.contain F) x₀ n = some x ∧ q ∈ (g.applyPlans F x g.plans).work := by
  obtain ⟨x, x', hx, hcontain⟩ := failureAt_eq_some_iff.1 h
  obtain ⟨-, hfailed, -⟩ := contain_eq_some_iff.1 hcontain
  obtain ⟨-, -, hF⟩ := applyPlans_spec (g := g) (F := F) g.plans x
  exact ⟨(hF q hfailed).1, x, hx, (hF q hfailed).2⟩

/-- The exclusions of a retry. -/
theorem exclusions_of_stateAt_succ {n : ℕ} {x : Exclusions ρ}
    (h : stateAt (g.contain F) x₀ (n + 1) = some x) :
    ∃ t q, stateAt (g.contain F) x₀ n = some t ∧ failureAt (g.contain F) x₀ n = some q ∧
      x.excludedTables = [q] ∧ x.stagedLost = true ∧ q ∈ x.blockedSchemaTables ∧
      ∀ r ∈ t.blockedSchemaTables, r ∈ x.blockedSchemaTables := by
  obtain ⟨t, q, ht, hcontain⟩ := stateAt_succ_eq_some_iff.1 h
  obtain ⟨-, -, rfl⟩ := contain_eq_some_iff.1 hcontain
  obtain ⟨-, hblocked, -⟩ := applyPlans_spec (g := g) (F := F) g.plans t
  exact ⟨t, q, ht, failureAt_eq_some_iff.2 ⟨t, _, ht, hcontain⟩, rfl, rfl, by simp,
    fun r hr => List.mem_append_left _ (hblocked r hr)⟩

/-- A retry has items of relations in memory only. -/
theorem foldsInMemory_of_retry {n : ℕ} {x : Exclusions ρ}
    (hx : stateAt (g.contain F) x₀ (n + 1) = some x) {q : ρ}
    (h : q ∈ (g.applyPlans F x g.plans).work) : g.FoldsInMemory q := by
  obtain ⟨_, _, -, -, -, hlost, -⟩ := exclusions_of_stateAt_succ hx
  obtain ⟨hspec, -, -⟩ := applyPlans_spec (g := g) (F := F) g.plans x
  obtain ⟨⟨plan, hplan, hmet⟩, hignored, -⟩ := hspec q h
  exact ⟨hignored, plan, hplan, mem_events_of_lost hlost hmet⟩

/-- A chain whose attempts exclude what failed before ends in time. -/
theorem retryEnds_of_excludes
    (h : ∀ m n q x, m < n → failureAt (g.contain F) x₀ m = some q →
      stateAt (g.contain F) x₀ n = some x → q ∉ (g.applyPlans F x g.plans).work) :
    g.RetryEnds F x₀ where
  ends := by
    refine stateAt_eq_none_of_fresh F (fun n q hq => (work_of_failureAt hq).1)
      fun m n q hlt hm hn => ?_
    obtain ⟨-, x, hx, hwork⟩ := work_of_failureAt hn
    exact h m n q x hlt hm hx hwork
  excludes := h

/-- **Outside a snapshot the retry ends**, however many relations fail: the blocked relations are
kept, and the planner leaves them out. -/
theorem retryEnds_of_streaming (hstream : g.isSnapshot = false) : g.RetryEnds F x₀ := by
  have hkept : ∀ n x, stateAt (g.contain F) x₀ n = some x → ∀ m q, m < n →
      failureAt (g.contain F) x₀ m = some q → q ∈ x.blockedSchemaTables := by
    intro n
    induction n with
    | zero =>
      intro x _ m q hlt
      omega
    | succ n ih =>
      intro x hx m q hlt hm
      obtain ⟨t, r, ht, hr, -, -, hin, hkeep⟩ := exclusions_of_stateAt_succ hx
      rcases Nat.lt_succ_iff_lt_or_eq.1 hlt with hlt | rfl
      · exact hkeep q (ih t ht m q hlt hm)
      · rw [hm, Option.some.injEq] at hr
        exact hr ▸ hin
  refine retryEnds_of_excludes fun m n q x hlt hm hx hwork => ?_
  obtain ⟨hspec, -, -⟩ := applyPlans_spec (g := g) (F := F) g.plans x
  exact (hspec q hwork).2.2.2 hstream (List.mem_append_left _ (hkept n x hx m q hlt hm))

/-- One failing relation with rows in memory is excluded by every retry that meets it: the first
retry excludes what failed in the first attempt, and later ones can only have failed on it. -/
theorem retryEnds_of_unique
    (hunique : ∀ q ∈ F, ∀ r ∈ F, g.FoldsInMemory q → g.FoldsInMemory r → q = r) :
    g.RetryEnds F x₀ := by
  refine retryEnds_of_excludes fun m n q x hlt hm hx hwork => ?_
  obtain ⟨k, rfl⟩ : ∃ k, n = k + 1 := ⟨n - 1, by omega⟩
  obtain ⟨t, r, -, hr, hexcluded, -⟩ := exclusions_of_stateAt_succ hx
  have hne : q ≠ r := by
    obtain ⟨hspec, -, -⟩ := applyPlans_spec (g := g) (F := F) g.plans x
    rintro rfl
    have hnot := (hspec q hwork).2.2.1
    rw [hexcluded] at hnot
    exact hnot (List.mem_singleton_self q)
  rcases Nat.lt_succ_iff_lt_or_eq.1 hlt with hlt | rfl
  · -- what failed last failed in a retry, so it is in memory too
    obtain ⟨k, rfl⟩ : ∃ j, k = j + 1 := ⟨k - 1, by omega⟩
    obtain ⟨hrF, y, hy, hrwork⟩ := work_of_failureAt hr
    exact hne (hunique q (work_of_failureAt hm).1 r hrF (foldsInMemory_of_retry hx hwork)
      (foldsInMemory_of_retry hy hrwork))
  · exact hne (Option.some.inj (hm.symm.trans hr))

/-- **Two failing relations in the memory of a snapshot alternate for ever**: each retry excludes
the relation that failed last, and forgets the one before. -/
theorem retry_never_ends (hsnapshot : g.isSnapshot = true) (hsink : g.independent = true) {q r : ρ}
    (hqF : q ∈ F) (hrF : r ∈ F) (hq : g.FoldsInMemory q) (hr : g.FoldsInMemory r) (hne : q ≠ r)
    (hx₀ : x₀.excludedTables = []) (n : ℕ) : (stateAt (g.contain F) x₀ n).isSome := by
  have hstep : ∀ x : Exclusions ρ, x.excludedTables.length ≤ 1 →
      ∃ p x', g.contain F x = some (p, x') ∧ x'.excludedTables.length ≤ 1 := by
    intro x hx
    have hfailed : (g.applyPlans F x g.plans).failed.isSome := by
      by_cases hin : q ∈ x.excludedTables
      · refine failed_isSome_of_snapshot hsnapshot _ x hrF hr.2 hr.1 fun hin' => hne ?_
        obtain ⟨p, hp⟩ := List.length_eq_one_iff.1
          (le_antisymm hx (List.length_pos_of_mem hin))
        rw [hp, List.mem_singleton] at hin hin'
        rw [hin, hin']
      · exact failed_isSome_of_snapshot hsnapshot _ x hqF hq.2 hq.1 hin
    obtain ⟨p, hp⟩ := Option.isSome_iff_exists.1 hfailed
    exact ⟨p, _, contain_eq_some_iff.2 ⟨hsink, hp, rfl⟩, le_rfl⟩
  have hfirst : x₀.excludedTables.length ≤ 1 := by simp [hx₀]
  obtain ⟨x, hx, -⟩ := stateAt_isSome_of_invariant (P := fun x : Exclusions ρ =>
    x.excludedTables.length ≤ 1) hfirst hstep n
  rw [hx, Option.isSome_some]

/-- **When the retry ends**: for every group, every set of relations whose writes fail, and every
state the group is reached in, exactly when the group is not a snapshot, or there is no sink to
record a refusal in, or at most one of the failing relations has rows in memory: a relation whose
rows were all staged is not met again. -/
theorem retryEnds_iff (g : PlannedGroup ρ) (F : Finset ρ) (blocked held : List ρ) :
    g.RetryEnds F { blockedSchemaTables := blocked, heldTables := held } ↔
      g.isSnapshot = false ∨ g.independent = false ∨
        ∀ q ∈ F, ∀ r ∈ F, g.FoldsInMemory q → g.FoldsInMemory r → q = r := by
  constructor
  · intro h
    by_contra hnot
    push Not at hnot
    obtain ⟨hsnapshot, hsink, q, hqF, r, hrF, hq, hr, hne⟩ := hnot
    have hsome : (stateAt (g.contain F) { blockedSchemaTables := blocked, heldTables := held }
        (F.card + 1)).isSome :=
      retry_never_ends (by simpa using hsnapshot) (by simpa using hsink) hqF hrF hq hr hne rfl _
    rw [h.ends, Option.isSome_none] at hsome
    cases hsome
  · rintro (hstream | hsink | hunique)
    · exact retryEnds_of_streaming hstream
    · refine retryEnds_of_excludes fun m n q x _ hm => ?_
      obtain ⟨t, t', -, hcontain⟩ := failureAt_eq_some_iff.1 hm
      simp [(contain_eq_some_iff.1 hcontain).1] at hsink
    · exact retryEnds_of_unique hunique

/-- Two chunks of a snapshot whose relations both fail. -/
def twoChunks : PlannedGroup String where
  isSnapshot := true
  plans := [[{ relation := "app.accounts" }, { relation := "app.orders" }]]

/-- The third attempt writes `app.accounts` again, which failed in the first, and there is a fourth
one. -/
theorem twoChunks_alternate :
    ¬ twoChunks.RetryEnds {"app.accounts", "app.orders"} {} := by
  intro h
  have hfirst : failureAt (twoChunks.contain {"app.accounts", "app.orders"}) {} 0 =
      some "app.accounts" := by
    rfl
  have hthird : stateAt (twoChunks.contain {"app.accounts", "app.orders"}) {} 2 =
      some { blockedSchemaTables := ["app.accounts", "app.orders"]
             excludedTables := ["app.orders"]
             stagedLost := true } := by
    rfl
  exact h.excludes 0 2 _ _ (by omega) hfirst hthird (by decide)

end PlannedGroup

end CdcFlight
