/-
# `Lib.Lww` — last-writer-wins slots and merge trees

A slot holds at most one entry.  When two entries meet, a total and transitive
relation `wins` says which one stays (`Picker`).  Replicas merge in any order
and any grouping, so what they compute is a tree of merges (`MergeTree`) over
the states they started from.  The slot of the root is a *winner* of the
entries in the leaves (`MergeTree.isWinner_slot`); if `wins` is antisymmetric on those
entries, there is only one winner, so that two trees with the same leaves agree
(`MergeTree.slot_eq`), however they are ordered and however often a leaf occurs.
-/
import Mathlib

namespace Lib

variable {α σ : Type}

/-! ## The choice between two entries -/

/-- The rule by which one of two entries stays: `wins a b` when `a` stays. -/
structure Picker (α : Type) where
  wins : α → α → Bool
  total : ∀ a b, wins a b = true ∨ wins b a = true
  trans : ∀ a b c, wins a b = true → wins b c = true → wins a c = true

namespace Picker

variable (P : Picker α)

/-- The entry that stays; the first one wins a draw. -/
def pick (a b : α) : α := if P.wins a b then a else b

/-- The same on slots: an empty slot takes what comes. -/
def pickOpt : Option α → Option α → Option α
  | none, x => x
  | some a, none => some a
  | some a, some b => some (P.pick a b)

@[simp] theorem pickOpt_none_left (x : Option α) : P.pickOpt none x = x := rfl

@[simp] theorem pickOpt_none_right (x : Option α) : P.pickOpt x none = x := by cases x <;> rfl

@[simp] theorem pickOpt_some_some (a b : α) :
    P.pickOpt (some a) (some b) = some (P.pick a b) := rfl

theorem wins_refl (a : α) : P.wins a a = true := (P.total a a).elim id id

@[simp] theorem pick_self (a : α) : P.pick a a = a := ite_self a

theorem pick_eq_or (a b : α) : P.pick a b = a ∨ P.pick a b = b := by
  unfold pick
  split
  · exact .inl rfl
  · exact .inr rfl

theorem wins_of_not_wins {a b : α} (h : ¬ P.wins a b = true) : P.wins b a = true :=
  (P.total a b).resolve_left h

/-- The entry that stays wins against the first … -/
theorem pick_wins_left (a b : α) : P.wins (P.pick a b) a = true := by
  unfold pick
  split
  · exact P.wins_refl a
  · next h => exact P.wins_of_not_wins h

/-- … and against the second. -/
theorem pick_wins_right (a b : α) : P.wins (P.pick a b) b = true := by
  unfold pick
  split
  · next h => exact h
  · exact P.wins_refl b

/-- A slot that is filled stays filled, with an entry that wins against the old one. -/
theorem pickOpt_some_left (a : α) (y : Option α) :
    ∃ c, P.pickOpt (some a) y = some c ∧ P.wins c a = true := by
  cases y with
  | none => exact ⟨a, rfl, P.wins_refl a⟩
  | some b => exact ⟨P.pick a b, rfl, P.pick_wins_left a b⟩

/-- What is in the slot afterwards came from one side. -/
theorem pickOpt_eq_some {x y : Option α} {c : α} (h : P.pickOpt x y = some c) :
    x = some c ∨ y = some c := by
  cases x with
  | none => exact .inr h
  | some a =>
      cases y with
      | none => exact .inl h
      | some b =>
          rcases P.pick_eq_or a b with hp | hp
          · exact .inl (by rw [← h, pickOpt_some_some, hp])
          · exact .inr (by rw [← h, pickOpt_some_some, hp])

/-- A reflexive relation holds between a filled slot and what it becomes exactly
when the entry that comes in stands in it as far as it takes the place. -/
theorem pickOpt_rel_iff {R : α → α → Prop} (hR : ∀ a, R a a) {x y : Option α} :
    (∀ a c, x = some a → P.pickOpt x y = some c → R a c) ↔
      ∀ a b, x = some a → y = some b → ¬ P.wins a b = true → R a b := by
  constructor
  · rintro h a b rfl rfl hw
    exact h a b rfl (by rw [pickOpt_some_some, pick, if_neg hw])
  · rintro h a c rfl hc
    cases y with
    | none =>
        cases hc
        exact hR a
    | some b =>
        by_cases hw : P.wins a b = true
        · rw [pickOpt_some_some, pick, if_pos hw] at hc
          cases hc
          exact hR a
        · rw [pickOpt_some_some, pick, if_neg hw] at hc
          cases hc
          exact h a _ rfl rfl hw

/-! ## Winners of a set of entries -/

/-- `w` is a winner of the entries `S`: empty when there are none, else one of
them that wins against all. -/
def IsWinner (S : Set α) : Option α → Prop
  | none => S = ∅
  | some a => a ∈ S ∧ ∀ b ∈ S, P.wins a b = true

theorem isWinner_self (x : Option α) : P.IsWinner {a | x = some a} x := by
  cases x with
  | none => simp [IsWinner]
  | some a => simp [IsWinner, P.wins_refl]

/-- Winners of two sets merge to a winner of their union. -/
theorem IsWinner.pickOpt {S T : Set α} {x y : Option α} (hx : P.IsWinner S x)
    (hy : P.IsWinner T y) : P.IsWinner (S ∪ T) (P.pickOpt x y) := by
  cases x with
  | none =>
      rw [show S = ∅ from hx, Set.empty_union]
      exact hy
  | some a =>
      cases y with
      | none =>
          rw [show T = ∅ from hy, Set.union_empty]
          exact hx
      | some b =>
          constructor
          · rcases P.pick_eq_or a b with hp | hp <;> rw [hp]
            · exact .inl hx.1
            · exact .inr hy.1
          · rintro c (hc | hc)
            · exact P.trans _ _ _ (P.pick_wins_left a b) (hx.2 c hc)
            · exact P.trans _ _ _ (P.pick_wins_right a b) (hy.2 c hc)

/-- A part of what has `y` is enough, if `S` knows something better than what it leaves out. -/
theorem IsWinner.pickOpt_part {S T : Set α} {x y z : Option α} (hx : P.IsWinner S x)
    (hy : P.IsWinner T y) (hz : z = none ∨ z = y)
    (hleft : ∀ e, y = some e → z = some e ∨ ∃ e₀ ∈ S, P.wins e₀ e = true) :
    P.IsWinner (S ∪ T) (P.pickOpt x z) := by
  rcases hz with rfl | rfl
  · rw [pickOpt_none_right]
    cases y with
    | none =>
        rw [show T = ∅ from hy, Set.union_empty]
        exact hx
    | some e =>
        obtain ⟨e₀, he₀, hbetter⟩ := (hleft e rfl).resolve_left (Option.some_ne_none e).symm
        cases x with
        | none =>
            rw [show S = ∅ from hx] at he₀
            exact he₀.elim
        | some c =>
            refine ⟨.inl hx.1, ?_⟩
            rintro b (hb | hb)
            · exact hx.2 b hb
            · exact P.trans _ _ _ (P.trans _ _ _ (hx.2 e₀ he₀) hbetter) (hy.2 b hb)
  · exact hx.pickOpt P hy

/-- No two entries of `S` draw. -/
def NoDraw (S : Set α) : Prop :=
  ∀ a ∈ S, ∀ b ∈ S, P.wins a b = true → P.wins b a = true → a = b

/-- Without draws the winner is unique. -/
theorem IsWinner.unique {S : Set α} (hS : P.NoDraw S) {x y : Option α}
    (hx : P.IsWinner S x) (hy : P.IsWinner S y) : x = y := by
  cases x with
  | none =>
      cases y with
      | none => rfl
      | some b => exact absurd hy.1 (by rw [show S = ∅ from hx]; exact id)
  | some a =>
      cases y with
      | none => exact absurd hx.1 (by rw [show S = ∅ from hy]; exact id)
      | some b => rw [hS a hx.1 b hy.1 (hx.2 b hy.1) (hy.2 a hx.1)]

/-- Merging is independent of the side exactly when the two sides do not draw. -/
theorem pickOpt_comm_iff {x y : Option α} :
    P.pickOpt x y = P.pickOpt y x ↔
      ∀ a b, x = some a → y = some b → P.wins a b = true → P.wins b a = true → a = b := by
  cases x with
  | none => simp
  | some a =>
      cases y with
      | none => simp
      | some b =>
          simp only [pickOpt_some_some, Option.some.injEq, pick]
          constructor
          · rintro h _ _ rfl rfl hab hba
            rwa [if_pos hab, if_pos hba] at h
          · intro h
            rcases P.total a b with hab | hba
            · by_cases hba : P.wins b a = true
              · rw [if_pos hab, if_pos hba, h a b rfl rfl hab hba]
              · rw [if_pos hab, if_neg hba]
            · by_cases hab : P.wins a b = true
              · rw [if_pos hab, if_pos hba, h a b rfl rfl hab hba]
              · rw [if_neg hab, if_pos hba]

end Picker

/-! ## Merge trees -/

/-- The merges a replica performed, over the states it started from. -/
inductive MergeTree (σ : Type) where
  | leaf (s : σ)
  | node (l r : MergeTree σ)

namespace MergeTree

/-- The state a tree of merges computes. -/
def eval (merge : σ → σ → σ) : MergeTree σ → σ
  | leaf s => s
  | node l r => merge (l.eval merge) (r.eval merge)

/-- The states a tree starts from. -/
def leaves : MergeTree σ → Set σ
  | leaf s => {s}
  | node l r => l.leaves ∪ r.leaves

/-- The entries of a slot in a set of states. -/
def entries (slot : σ → Option α) (S : Set σ) : Set α := {a | ∃ s ∈ S, slot s = some a}

theorem entries_union (slot : σ → Option α) (S T : Set σ) :
    entries slot (S ∪ T) = entries slot S ∪ entries slot T := by
  ext a
  simp only [entries, Set.mem_ofPred_eq, Set.mem_union]
  constructor
  · rintro ⟨s, hs | hs, h⟩
    · exact .inl ⟨s, hs, h⟩
    · exact .inr ⟨s, hs, h⟩
  · rintro (⟨s, hs, h⟩ | ⟨s, hs, h⟩)
    · exact ⟨s, .inl hs, h⟩
    · exact ⟨s, .inr hs, h⟩

variable {P : Picker α} {merge : σ → σ → σ} {slot : σ → Option α}

/-- **The root holds a winner of the leaves.** -/
theorem isWinner_slot (hm : ∀ s t, slot (merge s t) = P.pickOpt (slot s) (slot t)) :
    ∀ t : MergeTree σ, P.IsWinner (entries slot t.leaves) (slot (t.eval merge))
  | leaf s => by
      have h : entries slot {s} = {a | slot s = some a} := by simp [entries]
      rw [leaves, h]
      exact P.isWinner_self (slot s)
  | node l r => by
      rw [leaves, entries_union, eval, hm]
      exact Picker.IsWinner.pickOpt P (isWinner_slot hm l) (isWinner_slot hm r)

/-- **Convergence.**  Trees over the same states end in the same slot. -/
theorem slot_eq (hm : ∀ s t, slot (merge s t) = P.pickOpt (slot s) (slot t))
    {t u : MergeTree σ} (hl : t.leaves = u.leaves) (hd : P.NoDraw (entries slot t.leaves)) :
    slot (t.eval merge) = slot (u.eval merge) :=
  Picker.IsWinner.unique P hd (isWinner_slot hm t) (hl ▸ isWinner_slot hm u)

end MergeTree

end Lib
