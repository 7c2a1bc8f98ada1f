import CdcFlight.Lib.Worklist

/-!
# Declared states and transitions

`states.Machine`: a state domain and its legal edges, and `states.ranked`, the machine whose only
edges are escalations. A machine is generic in its states; the checks of the constructor are proof
fields.

## Main definitions

* `CdcFlight.Machine`: `check`, `allows`, `successors` and `reachableStates`.
* `CdcFlight.ranked`: the machine of a precedence.

## Main results

* `CdcFlight.Machine.mem_reachableStates_iff`: the worklist finds what the edges lead to.
* `CdcFlight.mem_edges_ranked`: an edge of a precedence is a rise in rank.
-/

namespace CdcFlight

open Lib

/-- `states.IllegalTransition`: both ends, and where the transition might have led. -/
structure IllegalTransition (σ : Type) where
  frm : σ
  to' : σ
  legal : List σ
deriving DecidableEq

/-- The order in which a set is iterated, which is any. -/
structure SetOrder (α : Type) where
  /-- The elements in order. -/
  list : List α → List α
  perm : ∀ l, (list l).Perm l

/-- `states.Machine`. -/
structure Machine (σ : Type) where
  states : List σ
  edges : List (σ × σ)
  terminal : List σ := []
  initialStates : List σ := []
  states_nodup : states.Nodup
  edges_subset : ∀ e ∈ edges, e.1 ∈ states ∧ e.2 ∈ states
  terminal_subset : terminal ⊆ states
  initial_nodup : initialStates.Nodup
  initial_subset : initialStates ⊆ states

namespace Machine

variable {σ : Type} [DecidableEq σ] (m : Machine σ)

/-- `is_terminal`. -/
def isTerminal (state : σ) : Bool := state ∈ m.terminal

/-- `allows`. -/
def allows (frm to' : σ) : Bool := (frm, to') ∈ m.edges

/-- `successors`, which is a set. -/
def successors (frm : σ) : List σ := ((m.edges.filter (·.1 = frm)).map Prod.snd).dedup

/-- `check`. -/
def check (frm to' : σ) : Except (IllegalTransition σ) Unit :=
  if (frm, to') ∈ m.edges then .ok ()
  else .error { frm := frm, to' := to', legal := m.successors frm }

variable {m} {frm to' : σ}

@[simp] theorem mem_successors : to' ∈ m.successors frm ↔ (frm, to') ∈ m.edges := by
  simp [successors]

@[simp] theorem allows_iff : m.allows frm to' = true ↔ (frm, to') ∈ m.edges := by simp [allows]

@[simp] theorem check_eq_ok_iff {u : Unit} : m.check frm to' = .ok u ↔ (frm, to') ∈ m.edges := by
  rw [check]
  split_ifs with h
  · simp [h]
  · simp [h]

variable (m)

/-- The graph of a machine, with the order in which sets are iterated. -/
def graph (order : SetOrder σ) : FiniteGraph σ where
  succ frm := order.list (m.successors frm)
  targets := (m.edges.map Prod.snd).toFinset
  succ_mem {frm to'} h := by
    rw [(order.perm _).mem_iff, mem_successors] at h
    rw [List.mem_toFinset]
    exact List.mem_map_of_mem h

/-- `reachable_states`. -/
def reachableStates (order : SetOrder σ) : Finset σ :=
  (m.graph order).closure m.initialStates.toFinset (order.list m.initialStates).reverse

theorem adj_graph (order : SetOrder σ) : (m.graph order).Adj frm to' ↔ (frm, to') ∈ m.edges := by
  rw [FiniteGraph.Adj, graph, (order.perm _).mem_iff, mem_successors]

/-- **Reachable states.** In whatever order the sets are iterated, the worklist finds the states
that the declared edges lead to from an initial state. -/
theorem mem_reachableStates_iff (order : SetOrder σ) (state : σ) :
    state ∈ m.reachableStates order ↔
      ∃ initial ∈ m.initialStates,
        Relation.ReflTransGen (fun a b => (a, b) ∈ m.edges) initial state := by
  have hmem (a : σ) : a ∈ (order.list m.initialStates).reverse ↔ a ∈ m.initialStates := by
    rw [List.mem_reverse, (order.perm _).mem_iff]
  have hpending : (m.graph order).Pending m.initialStates.toFinset
      (order.list m.initialStates).reverse := by
    refine ⟨fun a ha => ?_, fun a ha => .inl ?_⟩
    · exact List.mem_toFinset.2 ((hmem a).1 ha)
    · exact (hmem a).2 (List.mem_toFinset.1 ha)
  have hadj : (m.graph order).Adj = fun a b => (a, b) ∈ m.edges := by
    funext a b
    exact propext (m.adj_graph order)
  rw [reachableStates, FiniteGraph.mem_closure_iff hpending, hadj]
  simp only [List.mem_toFinset]

end Machine

/-! ### Precedences -/

section Ranked

variable {σ : Type}

/-- The edges of `ranked`: from each state to the later ones. -/
def escalations : List σ → List (σ × σ)
  | [] => []
  | a :: order => order.map (a, ·) ++ escalations order

theorem mem_of_mem_escalations {order : List σ} {e : σ × σ} (h : e ∈ escalations order) :
    e.1 ∈ order ∧ e.2 ∈ order := by
  induction order with
  | nil => simp [escalations] at h
  | cons a order ih =>
    rw [escalations, List.mem_append, List.mem_map] at h
    rcases h with ⟨b, hb, rfl⟩ | h
    · exact ⟨List.mem_cons_self, List.mem_cons_of_mem a hb⟩
    · exact (ih h).imp (List.mem_cons_of_mem a) (List.mem_cons_of_mem a)

/-- `states.ranked`: the least severe state first. -/
def ranked (order : List σ) (h : order.Nodup) : Machine σ where
  states := order
  edges := escalations order
  initialStates := order.head?.toList
  states_nodup := h
  edges_subset _ := mem_of_mem_escalations
  terminal_subset := List.nil_subset _
  initial_nodup := by cases order <;> simp
  initial_subset := by cases order <;> simp

variable [DecidableEq σ]

/-- An edge of a precedence is a rise in rank. -/
theorem mem_escalations {order : List σ} (h : order.Nodup) {a b : σ} :
    (a, b) ∈ escalations order ↔ order.idxOf a < order.idxOf b ∧ b ∈ order := by
  induction order with
  | nil => simp [escalations]
  | cons c order ih =>
    obtain ⟨hc, hnodup⟩ := List.nodup_cons.1 h
    rw [escalations, List.mem_append, ih hnodup, List.mem_map]
    by_cases hb : b = c
    · subst hb
      have hnot : b ∉ order := hc
      simp [hnot]
    · have hidx : (c :: order).idxOf b = order.idxOf b + 1 := List.idxOf_cons_ne _ (Ne.symm hb)
      rw [hidx, List.mem_cons, or_iff_right hb]
      by_cases ha : a = c
      · subst ha
        have hlt : ¬ order.idxOf a < order.idxOf b ∨ b ∉ order := by
          rw [← not_and_or]
          rintro ⟨hlt, hmem⟩
          exact hc (List.idxOf_lt_length_iff.1 (hlt.trans_le List.idxOf_le_length))
        simp only [Prod.mk.injEq, true_and, exists_eq_right, List.idxOf_cons_self]
        constructor
        · rintro (hmem | ⟨-, hmem⟩) <;> exact ⟨by omega, hmem⟩
        · exact fun h => .inl h.2
      · have hidx' : (c :: order).idxOf a = order.idxOf a + 1 := List.idxOf_cons_ne _ (Ne.symm ha)
        rw [hidx']
        simp [Ne.symm ha]

theorem mem_edges_ranked {order : List σ} (h : order.Nodup) {a b : σ} :
    (a, b) ∈ (ranked order h).edges ↔ order.idxOf a < order.idxOf b ∧ b ∈ order :=
  mem_escalations h

end Ranked

end CdcFlight
