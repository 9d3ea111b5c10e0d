/-
# `Lib.Loop` — loops that may go on for ever

A `loop { … }` whose body may stop with an error, `continue` or `break`, and may
depend on choices the program does not make (the order of a hash map, the
answers of a peer): the body is a relation between a state and the outcomes of
one pass.  `Terminates` says that no run of the loop is infinite.
-/
import Mathlib.Logic.Relation
import Mathlib.Order.WellFounded

namespace Lib

/-- How one pass of a loop ends when it does not fail. -/
inductive Control (σ : Type) where
  /-- The next pass starts in `s`. -/
  | next (s : σ)
  /-- `break`, with `s` as the final state. -/
  | done (s : σ)
deriving DecidableEq

namespace Loop

variable {σ ε : Type} {body : σ → Except ε (Control σ) → Prop}

/-- One pass that goes on. -/
def Step (body : σ → Except ε (Control σ) → Prop) (s s' : σ) : Prop := body s (.ok (.next s'))

/-- Some passes. -/
def Reaches (body : σ → Except ε (Control σ) → Prop) : σ → σ → Prop :=
  Relation.ReflTransGen (Step body)

/-- The ways out of the loop. -/
inductive Exits (body : σ → Except ε (Control σ) → Prop) (s : σ) : Except ε σ → Prop
  | done {s' a : σ} (h : Reaches body s s') (hb : body s' (.ok (.done a))) : Exits body s (.ok a)
  | error {s' : σ} {e : ε} (h : Reaches body s s') (hb : body s' (.error e)) :
      Exits body s (.error e)

/-- The loop takes finitely many passes, whatever they choose. -/
def Terminates (body : σ → Except ε (Control σ) → Prop) (s : σ) : Prop :=
  Acc (fun s' s => Step body s s') s

/-- What every pass keeps holds in every state reached. -/
theorem invariant (Inv : σ → Prop) (hstep : ∀ s s', Inv s → Step body s s' → Inv s') {s s' : σ}
    (h : Reaches body s s') (h₀ : Inv s) : Inv s' := by
  induction h with
  | refl => exact h₀
  | tail _ hs ih => exact hstep _ _ ih hs

/-- A loop whose passes all lower a number terminates. -/
theorem terminates_of_variant (Inv : σ → Prop)
    (hstep : ∀ s s', Inv s → Step body s s' → Inv s') (m : σ → ℕ)
    (hm : ∀ s s', Inv s → Step body s s' → m s' < m s) {s : σ} (h₀ : Inv s) :
    Terminates body s := by
  have h : ∀ (n : ℕ) (s : σ), m s < n → Inv s → Terminates body s := by
    intro n
    induction n with
    | zero =>
        intro s hs _
        exact absurd hs (Nat.not_lt_zero _)
    | succ n ih =>
        intro s hs hinv
        refine Acc.intro s fun s' hst => ?_
        have hlt := hm s s' hinv hst
        exact ih s' (by omega) (hstep s s' hinv hst)
  exact h (m s + 1) s (Nat.lt_succ_self _) h₀

/-- Where the loop terminates, it terminates after some passes too. -/
theorem Terminates.reaches {s s' : σ} (h : Terminates body s) (hr : Reaches body s s') :
    Terminates body s' := by
  induction hr with
  | refl => exact h
  | tail _ hs ih => exact Acc.inv ih hs

/-- A loop that terminates, and whose passes all end somehow, has a way out. -/
theorem Terminates.exists_exit {s : σ} (h : Terminates body s)
    (htotal : ∀ s, ∃ out, body s out) : ∃ out, Exits body s out := by
  induction h with
  | intro s _ ih =>
      obtain ⟨out, hb⟩ := htotal s
      cases out with
      | error e => exact ⟨_, .error .refl hb⟩
      | ok c =>
          cases c with
          | done a => exact ⟨_, .done .refl hb⟩
          | next s' =>
              obtain ⟨out, hexit⟩ := ih s' hb
              have hstep : Reaches body s s' := .single hb
              cases hexit with
              | done hr hb => exact ⟨_, .done (hstep.trans hr) hb⟩
              | error hr hb => exact ⟨_, .error (hstep.trans hr) hb⟩

/-- A property that some pass keeps for ever makes an infinite run. -/
theorem not_terminates_of_recurs {P : σ → Prop} (hP : ∀ s, P s → ∃ s', Step body s s' ∧ P s')
    {s : σ} (h₀ : P s) : ¬ Terminates body s := by
  intro h
  induction h with
  | intro s _ ih =>
      rcases hP s h₀ with ⟨s', hs, hp⟩
      exact ih s' hs hp

end Loop

end Lib
