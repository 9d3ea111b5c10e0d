/-
# `Lib.Framing` — concatenations of length-prefixed fields

    frame [x₁, …, xₙ] = u32_le(len x₁) || x₁ || … || u32_le(len xₙ) || xₙ

A field whose length does not fit `u32` cannot be written: `frame` answers
`none`.  The bytes of a frame determine its list of fields (`frame_inj`), with
no count and no terminator, because the end of the byte string is the end of
the list.
-/
import FreenetGit.Lib.Bytes

namespace Lib

/-- Whether the length of a field fits its `u32` prefix. -/
def Fits32 (x : Bytes) : Prop := x.length < 2 ^ 32

instance (x : Bytes) : Decidable (Fits32 x) := inferInstanceAs (Decidable (_ < _))

/-- One field behind its length. -/
def frameField (x : Bytes) : Bytes := u32le (UInt32.ofNat x.length) ++ x

/-- The concatenation of the fields, each behind its length. -/
def frame : List Bytes → Option Bytes
  | [] => some []
  | x :: xs => if Fits32 x then (frame xs).map (frameField x ++ ·) else none

theorem frame_eq_some_iff : ∀ {xs : List Bytes} {p : Bytes},
    frame xs = some p ↔ (∀ x ∈ xs, Fits32 x) ∧ p = xs.flatMap frameField
  | [], p => by simp [frame, eq_comm]
  | x :: xs, p => by
      by_cases hx : Fits32 x
      · simp only [frame, if_pos hx, Option.map_eq_some_iff, frame_eq_some_iff,
          List.forall_mem_cons, List.flatMap_cons]
        constructor
        · rintro ⟨q, ⟨hq, rfl⟩, rfl⟩
          exact ⟨⟨hx, hq⟩, rfl⟩
        · rintro ⟨⟨_, hq⟩, rfl⟩
          exact ⟨_, ⟨hq, rfl⟩, rfl⟩
      · simp only [frame, if_neg hx, List.forall_mem_cons]
        exact ⟨nofun, fun h => absurd h.1.1 hx⟩

/-- A frame followed by a frame is the frame of all fields. -/
theorem frame_append (xs ys : List Bytes) :
    frame (xs ++ ys) = (frame xs).bind fun p => (frame ys).map (p ++ ·) := by
  apply Option.ext
  intro q
  simp only [Option.bind_eq_some_iff, Option.map_eq_some_iff, frame_eq_some_iff,
    List.forall_mem_append, List.flatMap_append]
  constructor
  · rintro ⟨⟨hx, hy⟩, rfl⟩
    exact ⟨_, ⟨hx, rfl⟩, _, ⟨hy, rfl⟩, rfl⟩
  · rintro ⟨_, ⟨hx, rfl⟩, _, ⟨hy, rfl⟩, rfl⟩
    exact ⟨⟨hx, hy⟩, rfl⟩

/-- The first field can be read off, with what follows it. -/
theorem frameField_append_inj {x y a b : Bytes} (hx : Fits32 x) (hy : Fits32 y)
    (h : frameField x ++ a = frameField y ++ b) : x = y ∧ a = b := by
  unfold frameField at h
  rw [List.append_assoc, List.append_assoc] at h
  obtain ⟨hl, hr⟩ := List.append_inj h (by simp)
  have hlen : x.length = y.length := by
    have := congrArg UInt32.toNat (u32le_inj hl)
    rwa [UInt32.toNat_ofNat', UInt32.toNat_ofNat', Nat.mod_eq_of_lt hx, Nat.mod_eq_of_lt hy] at this
  exact List.append_inj hr hlen

theorem frameField_ne_nil (x : Bytes) : frameField x ≠ [] := by
  intro h
  have := congrArg List.length h
  simp [frameField] at this

theorem flatMap_frameField_inj : ∀ {xs ys : List Bytes}, (∀ x ∈ xs, Fits32 x) →
    (∀ y ∈ ys, Fits32 y) → xs.flatMap frameField = ys.flatMap frameField → xs = ys
  | [], [], _, _, _ => rfl
  | [], y :: _, _, _, h => by
      have := (List.append_eq_nil_iff.mp h.symm).1
      exact absurd this (frameField_ne_nil y)
  | x :: _, [], _, _, h => by
      have := (List.append_eq_nil_iff.mp h).1
      exact absurd this (frameField_ne_nil x)
  | x :: xs, y :: ys, hx, hy, h => by
      obtain ⟨rfl, h'⟩ := frameField_append_inj (hx x List.mem_cons_self)
        (hy y List.mem_cons_self) h
      rw [flatMap_frameField_inj (fun z hz => hx z (List.mem_cons_of_mem _ hz))
        (fun z hz => hy z (List.mem_cons_of_mem _ hz)) h']

/-- **Framing is injective.** -/
theorem frame_inj {xs ys : List Bytes} {p : Bytes} (hx : frame xs = some p)
    (hy : frame ys = some p) : xs = ys := by
  obtain ⟨hfx, rfl⟩ := frame_eq_some_iff.mp hx
  obtain ⟨hfy, h⟩ := frame_eq_some_iff.mp hy
  exact flatMap_frameField_inj hfx hfy h

end Lib
