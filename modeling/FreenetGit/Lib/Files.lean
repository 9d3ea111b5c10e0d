/-
# `Lib.Files` — names, inodes and their contents

A name points to an inode, an inode has a content, and an open file is the number of
its inode, which stays open when the name is moved.  A file is replaced by opening
another one, writing it in parts and renaming it; each call leaves the files alone that
it does not name (`read_openTruncate`, `read_write`, `read_rename`).
-/
import FreenetGit.Lib.Bytes

namespace Lib

/-- The names of a directory, and the contents of the inodes. -/
structure Files (N : Type) where
  inode : N → Option Nat
  content : Nat → Bytes
  next : Nat
  allocated : ∀ (n : N) (i : Nat), inode n = some i → i < next

/-- The content of a file after data was written at an offset; a gap is filled with zeros. -/
def overwrite (old : Bytes) (offset : Nat) (data : Bytes) : Bytes :=
  (old ++ List.replicate (offset - old.length) 0).take offset ++ data ++
    old.drop (offset + data.length)

/-- What was written up to an offset grows by what is written there. -/
theorem overwrite_take {bs : Bytes} {k : Nat} (hk : k ≤ bs.length) (n : Nat) :
    overwrite (bs.take k) k ((bs.drop k).take n) = bs.take (k + n) := by
  have hlen : (bs.take k).length = k := List.length_take_of_le hk
  have hdrop : (bs.take k).drop (k + ((bs.drop k).take n).length) = [] :=
    List.drop_eq_nil_of_le (hlen.trans_le (Nat.le_add_right _ _))
  rw [overwrite, hlen, hdrop, Nat.sub_self, List.replicate_zero, List.append_nil, List.append_nil,
    List.take_of_length_le hlen.le, List.take_add]

namespace Files

variable {N : Type} [DecidableEq N] (fs : Files N)

omit [DecidableEq N] in
/-- `std::fs::read`. -/
def read (n : N) : Option Bytes := (fs.inode n).map fs.content

omit [DecidableEq N] in
/-- The inode that is opened under a name: the one it points to, or a new one. -/
def opened (n : N) : Nat := (fs.inode n).getD fs.next

/-- `open` with `create`, `write` and `truncate`. -/
def openTruncate (n : N) : Files N where
  inode := Function.update fs.inode n (some (fs.opened n))
  content := Function.update fs.content (fs.opened n) []
  next := max fs.next (fs.opened n + 1)
  allocated m i h := by
    by_cases hm : m = n
    · subst hm
      rw [Function.update_self] at h
      exact lt_max_of_lt_right (Option.some.inj h ▸ Nat.lt_succ_self _)
    · rw [Function.update_of_ne hm] at h
      exact lt_max_of_lt_left (fs.allocated m i h)

omit [DecidableEq N] in
/-- `write` on an open file. -/
def write (fd offset : Nat) (data : Bytes) : Files N :=
  { fs with content := Function.update fs.content fd (overwrite (fs.content fd) offset data) }

/-- `rename`: the name `b` points to what `a` pointed to, and `a` is gone. -/
def rename (a b : N) : Option (Files N) :=
  match h : fs.inode a with
  | none => none
  | some i => some
      { fs with
        inode := Function.update (Function.update fs.inode a none) b (some i)
        allocated := by
          intro m j hj
          by_cases hb : m = b
          · rw [hb, Function.update_self] at hj
            exact Option.some.inj hj ▸ fs.allocated a i h
          · rw [Function.update_of_ne hb] at hj
            by_cases ha : m = a
            · rw [ha, Function.update_self] at hj
              cases hj
            · rw [Function.update_of_ne ha] at hj
              exact fs.allocated m j hj }

/-- The names are two, and not of one file. -/
def Apart (a b : N) : Prop := a ≠ b ∧ ∀ i, fs.inode a = some i → fs.inode b ≠ some i

variable {fs} {a b n : N} {fd : Nat}

@[simp] theorem inode_openTruncate_self : (fs.openTruncate n).inode n = some (fs.opened n) :=
  Function.update_self ..

theorem content_openTruncate : (fs.openTruncate n).content (fs.opened n) = [] :=
  Function.update_self ..

/-- Two names of two files stay so when one is opened. -/
theorem Apart.openTruncate (h : fs.Apart a b) : (fs.openTruncate a).Apart a b := by
  refine ⟨h.1, fun i hi hb => ?_⟩
  rw [inode_openTruncate_self] at hi
  have hb : fs.inode b = some i := (Function.update_of_ne h.1.symm _ _).symm.trans hb
  cases ha : fs.inode a with
  | none =>
      have hlt := fs.allocated b i hb
      rw [← Option.some.inj hi, opened, ha] at hlt
      exact absurd hlt (Nat.lt_irrefl _)
  | some j =>
      rw [opened, ha] at hi
      exact h.2 j ha (hi ▸ hb)

/-- Opening a file leaves the others as they are. -/
theorem read_openTruncate (h : fs.Apart a b) : (fs.openTruncate a).read b = fs.read b := by
  have hinode : (fs.openTruncate a).inode b = fs.inode b := Function.update_of_ne h.1.symm _ _
  rw [read, read, hinode]
  cases hb : fs.inode b with
  | none => rfl
  | some i =>
      refine congrArg some (Function.update_of_ne (fun heq => ?_) _ _)
      exact h.openTruncate.2 i (heq ▸ inode_openTruncate_self) (hinode.trans hb)

omit [DecidableEq N] in
theorem inode_write {offset : Nat} {data : Bytes} :
    (fs.write fd offset data).inode n = fs.inode n := rfl

omit [DecidableEq N] in
theorem content_write {offset : Nat} {data : Bytes} :
    (fs.write fd offset data).content fd = overwrite (fs.content fd) offset data :=
  Function.update_self ..

omit [DecidableEq N] in
/-- Writing a file leaves the others as they are. -/
theorem read_write (h : fs.inode b ≠ some fd) (offset : Nat) (data : Bytes) :
    (fs.write fd offset data).read b = fs.read b := by
  have hinode : (fs.write fd offset data).inode b = fs.inode b := rfl
  rw [read, read, hinode]
  cases hb : fs.inode b with
  | none => rfl
  | some i =>
      refine congrArg some (Function.update_of_ne (fun heq => ?_) _ _)
      exact h (heq ▸ hb)

/-- A name that points to a file can be renamed. -/
theorem exists_rename (ha : fs.inode a = some fd) : ∃ fs', fs.rename a b = some fs' := by
  unfold rename
  split
  · next h =>
      rw [ha] at h
      cases h
  · exact ⟨_, rfl⟩

/-- A file that is renamed is read under its new name, and the old name is gone. -/
theorem read_rename {fs' : Files N} (hab : a ≠ b) (ha : fs.inode a = some fd)
    (h : fs.rename a b = some fs') :
    fs'.read b = some (fs.content fd) ∧ fs'.Apart a b := by
  unfold rename at h
  split at h
  · cases h
  · next i hi =>
      cases h
      rw [ha] at hi
      cases hi
      refine ⟨?_, hab, fun i hi => ?_⟩
      · rw [read]
        dsimp only
        rw [Function.update_self]
        rfl
      · dsimp only at hi
        rw [Function.update_of_ne hab, Function.update_self] at hi
        cases hi

end Files

end Lib
