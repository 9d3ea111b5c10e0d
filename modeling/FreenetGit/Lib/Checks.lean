/-
# `Lib.Checks` — sequences of checks

A check answers `ok ()` or stops with an error.  Validators run one check after
another, over an optional value, over every entry of a map; each of these
passes exactly when all its checks pass.
-/
import FreenetGit.Lib.TreeMap

namespace Lib

variable {ε α β : Type}

theorem bind_eq_ok {x : Except ε α} {f : α → Except ε β} {b : β} :
    (x >>= f) = .ok b ↔ ∃ a, x = .ok a ∧ f a = .ok b := by
  cases x with
  | error e => exact ⟨nofun, fun ⟨_, h, _⟩ => nomatch h⟩
  | ok a => exact ⟨fun h => ⟨a, rfl, h⟩, fun ⟨_, h, h'⟩ => by cases h; exact h'⟩

theorem bind_eq_error {x : Except ε α} {f : α → Except ε β} {e : ε} :
    (x >>= f) = .error e ↔ x = .error e ∨ ∃ a, x = .ok a ∧ f a = .error e := by
  cases x with
  | error e' =>
      constructor
      · intro h
        cases h
        exact .inl rfl
      · rintro (h | ⟨_, h, _⟩)
        · cases h
          rfl
        · cases h
  | ok a =>
      constructor
      · exact fun h => .inr ⟨a, rfl, h⟩
      · rintro (h | ⟨_, h, h'⟩)
        · cases h
        · cases h
          exact h'

/-- One check after another. -/
theorem andThen_eq_ok {x : Except ε Unit} {y : Except ε Unit} :
    (x >>= fun _ => y) = .ok () ↔ x = .ok () ∧ y = .ok () := by
  rw [bind_eq_ok]
  exact ⟨fun ⟨_, h, h'⟩ => ⟨h, h'⟩, fun ⟨h, h'⟩ => ⟨(), h, h'⟩⟩

/-- `if let Some(x) = o { f(x)?; }` -/
def ifSome (o : Option α) (f : α → Except ε Unit) : Except ε Unit :=
  match o with
  | none => .ok ()
  | some x => f x

theorem ifSome_eq_ok {o : Option α} {f : α → Except ε Unit} :
    ifSome o f = .ok () ↔ ∀ x, o = some x → f x = .ok () := by
  cases o with
  | none => exact ⟨fun _ => nofun, fun _ => rfl⟩
  | some y => exact ⟨fun h _ hx => by cases hx; exact h, fun h => h y rfl⟩

theorem forM_eq_ok {f : α → Except ε Unit} :
    ∀ {l : List α}, l.forM f = .ok () ↔ ∀ x ∈ l, f x = .ok ()
  | [] => ⟨fun _ => nofun, fun _ => rfl⟩
  | x :: l => by
      rw [show (x :: l).forM f = (f x >>= fun _ => l.forM f) from rfl, andThen_eq_ok, forM_eq_ok,
        List.forall_mem_cons]

section Maps

open Std

variable {K V : Type} [Ord K] [TransOrd K] [LawfulEqOrd K]

/-- `for (k, v) in m { f(k, v)?; }` -/
def forEach (m : ExtTreeMap K V) (f : K → V → Except ε Unit) : Except ε Unit :=
  m.toList.forM fun p => f p.1 p.2

theorem forEach_eq_ok {m : ExtTreeMap K V} {f : K → V → Except ε Unit} :
    forEach m f = .ok () ↔ ∀ k v, m[k]? = some v → f k v = .ok () := by
  rw [forEach, forM_eq_ok]
  constructor
  · intro h k v hk
    exact h (k, v) (ExtTreeMap.mem_toList_iff_getElem?_eq_some.mpr hk)
  · rintro h ⟨k, v⟩ hp
    exact h k v (ExtTreeMap.mem_toList_iff_getElem?_eq_some.mp hp)

end Maps

end Lib
