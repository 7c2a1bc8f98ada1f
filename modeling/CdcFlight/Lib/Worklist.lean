import Mathlib

/-!
# Reachability by a worklist

The nodes of a finite graph that are reachable from some of its nodes, found by a stack of nodes
whose successors are still to be looked at.

## Main definitions

* `Lib.FiniteGraph`: the successors of each node, in any order.
* `Lib.FiniteGraph.enter`: successors that were not seen before are put on the stack.
* `Lib.FiniteGraph.closure`: the loop.

## Main results

* `Lib.FiniteGraph.mem_closure_iff`: the loop finds exactly the reachable nodes.
-/

namespace Lib

universe u

/-- A graph whose edges lead to finitely many nodes. -/
structure FiniteGraph (α : Type u) where
  /-- The successors of a node. -/
  succ : α → List α
  /-- The nodes that edges lead to. -/
  targets : Finset α
  succ_mem : ∀ {a b}, b ∈ succ a → b ∈ targets

namespace FiniteGraph

variable {α : Type u} (g : FiniteGraph α)

/-- There is an edge. -/
def Adj (a b : α) : Prop := b ∈ g.succ a

variable [DecidableEq α]

/-- Nodes that were not seen before are seen and put on the stack. -/
def enter (reached : Finset α) (stack : List α) : List α → Finset α × List α
  | [] => (reached, stack)
  | b :: bs =>
    if b ∈ reached then enter reached stack bs else enter (insert b reached) (b :: stack) bs

variable {g} {reached : Finset α} {stack bs : List α} {a b : α}

theorem mem_enter_fst : b ∈ (enter reached stack bs).1 ↔ b ∈ reached ∨ b ∈ bs := by
  induction bs generalizing reached stack with
  | nil => simp [enter]
  | cons c bs ih =>
    rw [enter]
    split_ifs with hc
    · rw [ih, List.mem_cons]
      constructor
      · tauto
      · rintro (h | rfl | h)
        · exact .inl h
        · exact .inl hc
        · exact .inr h
    · rw [ih, Finset.mem_insert, List.mem_cons]
      tauto

/-- What was not seen before is on the stack. -/
theorem mem_enter_snd :
    b ∈ (enter reached stack bs).2 ↔ b ∈ stack ∨ b ∈ bs ∧ b ∉ reached := by
  induction bs generalizing reached stack with
  | nil => simp [enter]
  | cons c bs ih =>
    rw [enter]
    split_ifs with hc
    · rw [ih, List.mem_cons]
      constructor
      · tauto
      · rintro (h | ⟨rfl | h, hb⟩)
        · exact .inl h
        · exact absurd hc hb
        · exact .inr ⟨h, hb⟩
    · rw [ih, List.mem_cons, List.mem_cons, Finset.mem_insert]
      by_cases hbc : b = c
      · subst hbc
        tauto
      · tauto

/-- A node that goes on the stack leaves the nodes still to be seen. -/
theorem card_enter (hbs : ∀ b ∈ bs, b ∈ g.targets) :
    (g.targets \ (enter reached stack bs).1).card + (enter reached stack bs).2.length =
      (g.targets \ reached).card + stack.length := by
  induction bs generalizing reached stack with
  | nil => rfl
  | cons c bs ih =>
    have hc := hbs c List.mem_cons_self
    have hrest := fun b hb => hbs b (List.mem_cons_of_mem c hb)
    rw [enter]
    split_ifs with hmem
    · exact ih hrest
    · have hcard : (g.targets \ insert c reached).card + 1 = (g.targets \ reached).card := by
        rw [Finset.sdiff_insert]
        exact Finset.card_erase_add_one (Finset.mem_sdiff.2 ⟨hc, hmem⟩)
      rw [ih hrest, List.length_cons]
      omega

variable (g)

/-- The nodes of the stack are looked at, the last one first, until none is left. -/
def closure (reached : Finset α) : List α → Finset α
  | [] => reached
  | a :: stack =>
    closure (enter reached stack (g.succ a)).1 (enter reached stack (g.succ a)).2
termination_by stack => (g.targets \ reached).card + stack.length
decreasing_by
  rw [card_enter (g := g) (fun b hb => g.succ_mem hb), List.length_cons]
  omega

/-- What the loop keeps: the stack was seen, and what is not on the stack has been looked at. -/
structure Pending (reached : Finset α) (stack : List α) : Prop where
  seen : ∀ a ∈ stack, a ∈ reached
  looked : ∀ a ∈ reached, a ∈ stack ∨ ∀ b, g.Adj a b → b ∈ reached

variable {g}

theorem Pending.enter (h : g.Pending reached (a :: stack)) :
    g.Pending (enter reached stack (g.succ a)).1 (enter reached stack (g.succ a)).2 where
  seen b hb := by
    rw [mem_enter_snd] at hb
    rw [mem_enter_fst]
    rcases hb with hb | ⟨hb, -⟩
    · exact .inl (h.seen b (List.mem_cons_of_mem a hb))
    · exact .inr hb
  looked c hc := by
    rw [mem_enter_fst] at hc
    rw [mem_enter_snd]
    simp only [mem_enter_fst]
    by_cases hseen : c ∈ reached
    · rcases h.looked c hseen with hstack | hall
      · rcases List.mem_cons.1 hstack with rfl | hstack
        · exact .inr fun b hb => .inr hb
        · exact .inl (.inl hstack)
      · exact .inr fun b hb => .inl (hall b hb)
    · exact .inl (.inr ⟨hc.resolve_left hseen, hseen⟩)

omit [DecidableEq α] in
/-- A set that is closed under the edges holds what is reachable from it. -/
theorem mem_of_reflTransGen (hclosed : ∀ a ∈ reached, ∀ b, g.Adj a b → b ∈ reached)
    (ha : a ∈ reached) (h : Relation.ReflTransGen g.Adj a b) : b ∈ reached := by
  induction h with
  | refl => exact ha
  | tail _ hstep ih => exact hclosed _ ih _ hstep

/-- **Exactness.** The loop finds the nodes that are reachable from those it starts with. -/
theorem mem_closure_iff (h : g.Pending reached stack) :
    b ∈ g.closure reached stack ↔ ∃ a ∈ reached, Relation.ReflTransGen g.Adj a b := by
  induction reached, stack using closure.induct g with
  | case1 reached =>
    rw [closure]
    refine ⟨fun hb => ⟨b, hb, .refl⟩, fun ⟨a, ha, hab⟩ => mem_of_reflTransGen ?_ ha hab⟩
    exact fun a ha => (h.looked a ha).resolve_left List.not_mem_nil
  | case2 reached a stack ih =>
    rw [closure, ih h.enter]
    constructor
    · rintro ⟨c, hc, hcb⟩
      rcases mem_enter_fst.1 hc with hc | hc
      · exact ⟨c, hc, hcb⟩
      · exact ⟨a, h.seen a List.mem_cons_self, .head hc hcb⟩
    · rintro ⟨c, hc, hcb⟩
      exact ⟨c, mem_enter_fst.2 (.inl hc), hcb⟩

end FiniteGraph

end Lib
