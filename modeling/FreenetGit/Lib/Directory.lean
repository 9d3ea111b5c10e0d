/-
# `Lib.Directory` — names, symbolic links and open files

A name stands for a file, which is an inode, or for a symbolic link to another name.
Opening a file for reading follows links; creating one exclusively, renaming and removing
act on the name itself.  An open file is the number of its inode, which outlives the name:
`lookup_file` and `content_write_of_ne` are what a program relies on that keeps to files it
created itself.
-/
import FreenetGit.Lib.Files

namespace Lib

/-- What a name stands for. -/
inductive DirEntry (N : Type) where
  | file (inode : Nat)
  | link (target : N)
deriving DecidableEq

/-- The names of a directory tree, and the contents of the inodes. -/
structure Directory (N : Type) where
  entry : N → Option (DirEntry N)
  content : Nat → Bytes
  next : Nat
  allocated : ∀ (n : N) (i : Nat), entry n = some (.file i) → i < next

namespace Directory

variable {N : Type}

/-- The links that are followed before a lookup fails with `ELOOP`. -/
def maxLinks : Nat := 40

/-- The file that a name leads to. -/
def resolve (d : Directory N) : Nat → N → Option Nat
  | 0, _ => none
  | k + 1, n =>
      match d.entry n with
      | none => none
      | some (.file i) => some i
      | some (.link m) => resolve d k m

/-- `open` for reading: the inode that is opened. -/
def lookup (d : Directory N) (n : N) : Option Nat := d.resolve (maxLinks + 1) n

/-- `write` on an open file. -/
def write (d : Directory N) (fd offset : Nat) (data : Bytes) : Directory N :=
  { d with content := Function.update d.content fd (overwrite (d.content fd) offset data) }

section

variable [DecidableEq N] (d : Directory N)

/-- `open` with `O_CREAT | O_EXCL`: it fails where the name stands for anything, be it a link. -/
def createNew (n : N) : Option (Directory N) :=
  if d.entry n = none then
    some
      { entry := Function.update d.entry n (some (.file d.next))
        content := Function.update d.content d.next []
        next := d.next + 1
        allocated := by
          intro m i h
          by_cases hm : m = n
          · rw [hm, Function.update_self] at h
            cases h
            exact Nat.lt_succ_self _
          · rw [Function.update_of_ne hm] at h
            exact Nat.lt_succ_of_lt (d.allocated m i h) }
  else none

/-- `unlink`. -/
def remove (n : N) : Directory N :=
  { d with
    entry := Function.update d.entry n none
    allocated := by
      intro m i h
      by_cases hm : m = n
      · rw [hm, Function.update_self] at h
        cases h
      · rw [Function.update_of_ne hm] at h
        exact d.allocated m i h }

/-- `rename`: the entry moves as it is, and replaces what stood under the new name.  Between
two names of one file it does nothing. -/
def rename (a b : N) : Option (Directory N) :=
  if ha : d.entry a = none then none
  else if ∃ i < d.next, d.entry a = some (.file i) ∧ d.entry b = some (.file i) then some d
  else some
    { d with
      entry := Function.update (Function.update d.entry a none) b (d.entry a)
      allocated := by
        intro m i h
        by_cases hb : m = b
        · rw [hb, Function.update_self] at h
          exact d.allocated a i h
        · rw [Function.update_of_ne hb] at h
          by_cases hma : m = a
          · rw [hma, Function.update_self] at h
            cases h
          · rw [Function.update_of_ne hma] at h
            exact d.allocated m i h }

end

section

variable {d d' : Directory N} {a b n m : N} {i fd offset : Nat} {data : Bytes}

/-- A name of a file leads to it. -/
theorem lookup_file (h : d.entry n = some (.file i)) : d.lookup n = some i := by
  rw [lookup, resolve, h]

theorem lookup_none (h : d.entry n = none) : d.lookup n = none := by
  rw [lookup, resolve, h]

theorem content_write_self :
    (d.write fd offset data).content fd = overwrite (d.content fd) offset data :=
  Function.update_self ..

/-- Writing a file leaves the others as they are. -/
theorem content_write_of_ne (h : i ≠ fd) : (d.write fd offset data).content i = d.content i :=
  Function.update_of_ne h ..

variable [DecidableEq N]

/-- What an exclusive creation does: the name was free, and is now that of an empty file that
no name had. -/
structure Created (d : Directory N) (n : N) (d' : Directory N) : Prop where
  free : d.entry n = none
  entry : d'.entry = Function.update d.entry n (some (.file d.next))
  content : d'.content = Function.update d.content d.next []
  next : d'.next = d.next + 1

theorem created_of_createNew (h : d.createNew n = some d') : Created d n d' := by
  unfold createNew at h
  split at h
  · next hfree =>
      cases h
      exact ⟨hfree, rfl, rfl, rfl⟩
  · cases h

theorem exists_createNew (h : d.entry n = none) : ∃ d', d.createNew n = some d' := by
  unfold createNew
  rw [if_pos h]
  exact ⟨_, rfl⟩

/-- What is not the new file is as it was. -/
theorem Created.content_of_lt (h : Created d n d') (hi : i < d.next) :
    d'.content i = d.content i := by
  rw [h.content, Function.update_of_ne (Nat.ne_of_lt hi)]

@[simp] theorem entry_remove_self : (d.remove n).entry n = none := Function.update_self ..

theorem entry_remove_of_ne (h : m ≠ n) : (d.remove n).entry m = d.entry m :=
  Function.update_of_ne h ..

theorem exists_rename (ha : d.entry a ≠ none) : ∃ d', d.rename a b = some d' := by
  unfold rename
  rw [dif_neg ha]
  split
  · exact ⟨_, rfl⟩
  · exact ⟨_, rfl⟩

/-- A renaming changes no content, and no entry but the two. -/
theorem rename_frame (h : d.rename a b = some d') :
    d'.content = d.content ∧ d'.next = d.next ∧
      ∀ m, m ≠ a → m ≠ b → d'.entry m = d.entry m := by
  unfold rename at h
  split at h
  · cases h
  · split at h
    · cases h
      exact ⟨rfl, rfl, fun _ _ _ => rfl⟩
    · cases h
      refine ⟨rfl, rfl, fun m ha hb => ?_⟩
      show Function.update (Function.update d.entry a none) b _ m = _
      rw [Function.update_of_ne hb, Function.update_of_ne ha]

/-- A file that only its old name leads to is found under the new one. -/
theorem rename_file (hab : a ≠ b) (ha : d.entry a = some (.file i))
    (hb : d.entry b ≠ some (.file i)) (h : d.rename a b = some d') :
    d'.entry a = none ∧ d'.entry b = some (.file i) := by
  unfold rename at h
  rw [dif_neg (ha ▸ Option.some_ne_none _), if_neg] at h
  · cases h
    constructor
    · show Function.update (Function.update d.entry a none) b _ a = none
      rw [Function.update_of_ne hab, Function.update_self]
    · show Function.update (Function.update d.entry a none) b _ b = _
      rw [Function.update_self, ha]
  · rintro ⟨j, -, hja, hjb⟩
    cases ha.symm.trans hja
    exact hb hjb

end

end Directory

end Lib
