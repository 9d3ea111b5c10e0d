/-
# `Lib.Run` — runs of labelled transition systems

A run is a list of transitions, each of which starts where the one before it
ended.  An invariant of the steps holds at both ends of every transition of a
run, so a property of a step that needs an invariant is a property of every
step of every run.
-/
import Mathlib

namespace Lib

/-- One step of a run. -/
structure Transition (σ ε : Type) where
  before : σ
  event : ε
  after : σ

/-- The runs from `s₀`, with the transitions made so far and the state reached. -/
inductive Run {σ ε : Type} (step : σ → ε → σ → Prop) (s₀ : σ) : List (Transition σ ε) → σ → Prop
  | nil : Run step s₀ [] s₀
  | snoc {tr : List (Transition σ ε)} {s s' : σ} {e : ε} (hrun : Run step s₀ tr s)
      (hstep : step s e s') : Run step s₀ (tr ++ [⟨s, e, s'⟩]) s'

namespace Run

variable {σ ε : Type} {step : σ → ε → σ → Prop} {s₀ s : σ} {tr : List (Transition σ ε)}

/-- One run after another. -/
theorem trans {tr' : List (Transition σ ε)} {s' : σ} (hrun : Run step s₀ tr s)
    (hrun' : Run step s tr' s') : Run step s₀ (tr ++ tr') s' := by
  induction hrun' with
  | nil => rwa [List.append_nil]
  | snoc _ hs ih =>
      rw [← List.append_assoc]
      exact ih.snoc hs

/-- **The invariant rule.** -/
theorem invariant {Inv : σ → Prop} (h₀ : Inv s₀)
    (hstep : ∀ s e s', Inv s → step s e s' → Inv s') (hrun : Run step s₀ tr s) : Inv s := by
  induction hrun with
  | nil => exact h₀
  | snoc _ hs ih => exact hstep _ _ _ ih hs

/-- **The history rule.**  An invariant of the transitions made so far and the
state reached, kept by every step that meets a condition. -/
theorem history (Inv : List (Transition σ ε) → σ → Prop) {Q : Transition σ ε → Prop}
    (h₀ : Inv [] s₀)
    (hstep : ∀ tr s e s', Inv tr s → step s e s' → Q ⟨s, e, s'⟩ → Inv (tr ++ [⟨s, e, s'⟩]) s')
    (hrun : Run step s₀ tr s) (hQ : ∀ t ∈ tr, Q t) : Inv tr s := by
  induction hrun with
  | nil => exact h₀
  | snoc _ hs ih =>
      have hlast := hQ _ (List.mem_append_right _ (List.mem_singleton_self _))
      exact hstep _ _ _ _ (ih fun t ht => hQ t (List.mem_append_left _ ht)) hs hlast

/-- Each transition of a run is a step, taken from a state with the invariant. -/
theorem mem {Inv : σ → Prop} (h₀ : Inv s₀) (hstep : ∀ s e s', Inv s → step s e s' → Inv s')
    (hrun : Run step s₀ tr s) {t : Transition σ ε} (ht : t ∈ tr) :
    Inv t.before ∧ step t.before t.event t.after := by
  induction hrun with
  | nil => exact absurd ht List.not_mem_nil
  | snoc hrun hs ih =>
      rcases List.mem_append.mp ht with ht | ht
      · exact ih ht
      · rw [List.mem_singleton.mp ht]
        exact ⟨invariant h₀ hstep hrun, hs⟩

/-- What came before a transition of a run led to where it starts. -/
theorem split {before after : List (Transition σ ε)} {t : Transition σ ε}
    (hrun : Run step s₀ tr s) (htr : tr = before ++ t :: after) :
    Run step s₀ before t.before ∧ step t.before t.event t.after ∧ Run step t.after after s := by
  induction hrun generalizing after with
  | nil => exact absurd htr.symm (List.append_ne_nil_of_right_ne_nil _ (List.cons_ne_nil _ _))
  | @snoc tr s s' e hrun hs ih =>
      rcases List.eq_nil_or_concat after with rfl | ⟨after, t', rfl⟩
      · obtain ⟨rfl, ht⟩ := List.append_inj' htr rfl
        cases ht
        exact ⟨hrun, hs, .nil⟩
      · rw [List.concat_eq_append, ← List.cons_append, ← List.append_assoc] at htr
        obtain ⟨hbefore, ht⟩ := List.append_inj' htr rfl
        cases ht
        obtain ⟨hbefore, ht, hafter⟩ := ih hbefore
        refine ⟨hbefore, ht, ?_⟩
        rw [List.concat_eq_append]
        exact hafter.snoc hs

/-- **The measure rule.**  What every step lowers bounds the length of a run. -/
theorem length_add_le {μ : σ → Nat} (hstep : ∀ s e s', step s e s' → μ s' < μ s)
    (hrun : Run step s₀ tr s) : tr.length + μ s ≤ μ s₀ := by
  induction hrun with
  | nil => exact (Nat.zero_add _).le
  | snoc _ hs ih =>
      have hlt := hstep _ _ _ hs
      rw [List.length_append, List.length_singleton]
      omega

/-- Two properties of a step that agree wherever the invariant holds agree over runs. -/
theorem forall_mem_iff (Inv : σ → Prop) {P Q : Transition σ ε → Prop} (h₀ : Inv s₀)
    (hstep : ∀ s e s', Inv s → step s e s' → Inv s')
    (hpq : ∀ t : Transition σ ε, Inv t.before → step t.before t.event t.after → (P t ↔ Q t))
    (hrun : Run step s₀ tr s) : (∀ t ∈ tr, P t) ↔ ∀ t ∈ tr, Q t := by
  refine forall₂_congr fun t ht => ?_
  obtain ⟨hinv, hs⟩ := hrun.mem h₀ hstep ht
  exact hpq t hinv hs

end Run

end Lib
