import CdcFlight.Lib.Programs

/-!
# Programs that run alike

Two programs on one state, written alike but for some calls. Where the states they meet keep the
calls from telling the difference, the programs run alike: they return the same value, or raise the
same error, in the same state. The rules follow the shape of the programs and carry along what is
known of the states.

## Main definitions

* `Lib.SameRun`: two programs run alike from a state, and where they return.

## Main results

* `Lib.SameRun.bind`, `Lib.SameRun.forM`: the rules for a sequence and for a loop.
-/

namespace Lib

universe u

variable {ε σ α β : Type u}

/-- From the state, the two programs run alike, and where they return they return into `Q`. -/
structure SameRun (m n : EStateM ε σ α) (Q : α → σ → Prop) (s : σ) : Prop where
  run_eq : m.run s = n.run s
  post : wp n Q (fun _ => True) s

/-- A condition that allows every error is one on the results. -/
theorem wp_true_iff {m : EStateM ε σ α} {Q : α → σ → Prop} {s : σ} :
    wp m Q (fun _ => True) s ↔ ∀ a t, m.run s = .ok a t → Q a t := by
  cases h : m.run s with
  | ok a t =>
    rw [wp_of_ok h]
    refine ⟨fun hq b r hb => ?_, fun hq => hq a t rfl⟩
    cases hb
    exact hq
  | error e t =>
    rw [wp_of_error h]
    exact iff_of_true trivial fun b r hb => nomatch hb

namespace SameRun

variable {m n : EStateM ε σ α} {f g : α → EStateM ε σ β} {P Q : α → σ → Prop} {R : β → σ → Prop}
  {s : σ}

/-- A program runs like itself. -/
theorem of_wp (h : wp m Q (fun _ => True) s) : SameRun m m Q s := ⟨rfl, h⟩

theorem mono (h : SameRun m n P s) (hPQ : ∀ a t, P a t → Q a t) : SameRun m n Q s :=
  ⟨h.run_eq, wp_mono h.post hPQ fun _ ht => ht⟩

/-- What holds of the results. -/
theorem of_ok (h : SameRun m n Q s) {a : α} {t : σ} (hrun : m.run s = .ok a t) : Q a t :=
  wp_true_iff.1 h.post a t (h.run_eq.symm.trans hrun)

theorem bind (h : SameRun m n P s) (hf : ∀ a t, P a t → SameRun (f a) (g a) R t) :
    SameRun (m >>= f) (n >>= g) R s := by
  refine ⟨?_, wp_bind.2 (wp_mono h.post (fun a t ht => (hf a t ht).post) fun _ ht => ht)⟩
  rw [EStateM.run_bind, EStateM.run_bind, h.run_eq]
  cases hn : n.run s with
  | ok a t => exact (hf a t (wp_true_iff.1 h.post a t hn)).run_eq
  | error e t => rfl

theorem get_bind {f g : σ → EStateM ε σ β} (h : SameRun (f s) (g s) R s) :
    SameRun (get >>= f) (get >>= g) R s := ⟨h.run_eq, h.post⟩

theorem of_throw (e : ε) :
    SameRun (throw e : EStateM ε σ α) (throw e : EStateM ε σ α) Q s := ⟨rfl, trivial⟩

theorem of_modify {Q : PUnit → σ → Prop} {p q : σ → σ} (hpq : p s = q s) (h : Q ⟨⟩ (q s)) :
    SameRun (modify p : EStateM ε σ PUnit) (modify q : EStateM ε σ PUnit) Q s :=
  ⟨congrArg (EStateM.Result.ok PUnit.unit) hpq, h⟩

theorem ite {c : Prop} [Decidable c] {m' n' : EStateM ε σ α} (hm : c → SameRun m n Q s)
    (hn : ¬c → SameRun m' n' Q s) : SameRun (if c then m else m') (if c then n else n') Q s := by
  split
  · exact hm ‹c›
  · exact hn ‹¬c›

/-- Loops whose bodies run alike from the states of an invariant, which may speak of the rounds
that are left. -/
theorem forM {ι : Type u} {I : List ι → σ → Prop} {body body' : ι → EStateM ε σ PUnit}
    (h : ∀ i l t, I (i :: l) t → SameRun (body i) (body' i) (fun _ => I l) t) (l : List ι)
    (hs : I l s) : SameRun (forM l body) (forM l body') (fun _ => I []) s := by
  induction l generalizing s with
  | nil => exact ⟨rfl, hs⟩
  | cons i l ih =>
    rw [List.forM_cons, List.forM_cons]
    exact (h i l s hs).bind fun _ t ht => ih ht

end SameRun

end Lib
