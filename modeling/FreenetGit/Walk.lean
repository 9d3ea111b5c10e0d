/-
# `FreenetGit.Walk` — the commits that are still missing

`walk_unresolved_parents` visits the history of the wanted commits as far as it
is local and returns the commits at its edge that are not; those it passed are
`walked` and are not visited again by a later call.  A local object that peels
to no commit ends the walk there.  `GitSpec` is what the helper relies on of git
and `GitSpec.lookUp_cases` what a visit finds.
-/
import FreenetGit.Lib.Checks
import FreenetGit.Lib.Worklist
import FreenetGit.Objects

namespace FreenetGit

open Lib

instance instFiniteUInt8 : Finite UInt8 := Finite.of_injective UInt8.toFin fun _ _ h => UInt8.toFin_inj.mp h

instance instFiniteArray (n : Nat) : Finite (Vector UInt8 n) :=
  Finite.of_injective (fun (v : Vector UInt8 n) (i : Fin n) => v[i]) fun v w h =>
    Vector.ext fun i hi => congrFun h ⟨i, hi⟩

/-- The order in which a hash set is iterated. -/
structure HashOrder (α : Type) where
  enum : Finset α → List α
  coe_enum : ∀ s : Finset α, (enum s : Multiset α) = s.val

theorem HashOrder.mem_enum {α : Type} (order : HashOrder α) {s : Finset α} {a : α} :
    a ∈ order.enum s ↔ a ∈ s := by
  rw [← Multiset.mem_coe, order.coe_enum, Finset.mem_val]

theorem HashOrder.enum_singleton {α : Type} (order : HashOrder α) (a : α) :
    order.enum {a} = [a] :=
  Multiset.coe_eq_singleton.mp (order.coe_enum {a})

variable {D : Type}

/-! ## The walk -/

section

variable (git : Git D) (db : D)

/-- What one visit finds: the parents of a commit, nothing to go on to, or a
missing object. -/
def lookUp (c : CommitHash) : Outcome String (Option (List CommitHash)) := do
  if ← commitExists git db (hexEncodeCommit c) then
    let parents ← gitCommitParents git db (hexEncodeCommit c)
    .ok (some parents)
  else if ← anyObjectExists git db (hexEncodeCommit c) then .ok (some [])
  else .ok none

/-- `walk_unresolved_parents`: the unresolved commits, and `walked` afterwards.
The stack is taken from its end. -/
def walkUnresolvedParents (order : HashOrder CommitHash) (wantedCommits walked : Finset CommitHash) :
    Outcome String (Finset CommitHash × Finset CommitHash) :=
  traverse (lookUp git db) (order.enum wantedCommits).reverse walked ∅

end

section

variable {git : Git D} {db : D} {order : HashOrder CommitHash} {wanted walked : Finset CommitHash}

/-- The objects that the walk visits. -/
def Visited (git : Git D) (db : D) (wanted walked : Finset CommitHash) : CommitHash → Prop :=
  Found (lookUp git db) walked wanted.toList

theorem found_enum {c : CommitHash} :
    Found (lookUp git db) walked (order.enum wanted).reverse c ↔ Visited git db wanted walked c := by
  constructor
  · refine Found.mono fun x hx => .inl ?_
    exact Finset.mem_toList.mpr (order.mem_enum.mp (List.mem_reverse.mp hx))
  · refine Found.mono fun x hx => .inl ?_
    exact List.mem_reverse.mpr (order.mem_enum.mpr (Finset.mem_toList.mp hx))

/-- **The result of a walk**: the visited objects that are missing, and `walked`
with those that are not. -/
theorem walk_eq_ok {newWants walked' : Finset CommitHash}
    (h : walkUnresolvedParents git db order wanted walked = .ok (newWants, walked')) :
    (∀ c, c ∈ newWants ↔ Visited git db wanted walked c ∧ lookUp git db c = .ok none) ∧
      ∀ c, c ∈ walked' ↔ c ∈ walked ∨
        (Visited git db wanted walked c ∧ ∃ next, lookUp git db c = .ok (some next)) := by
  obtain ⟨ha, hs⟩ := traverse_eq_ok h
  refine ⟨fun c => ?_, fun c => ?_⟩
  · rw [ha, found_enum]
    exact or_iff_right (Finset.notMem_empty c)
  · rw [hs, found_enum]

/-- Each wanted commit is walked or missing, and so is each parent of a commit
that was walked. -/
theorem walk_covers {newWants walked' : Finset CommitHash}
    (h : walkUnresolvedParents git db order wanted walked = .ok (newWants, walked')) :
    (∀ c ∈ wanted, c ∈ walked' ∨ c ∈ newWants) ∧
      ∀ c ∈ walked', c ∉ walked → ∀ next, lookUp git db c = .ok (some next) →
        ∀ d ∈ next, d ∈ walked' ∨ d ∈ newWants := by
  have hseen : ∀ c, c ∈ walked → c ∈ walked' := fun c hc => ((walk_eq_ok h).2 c).mpr (.inl hc)
  constructor
  · intro c hc
    by_cases hw : c ∈ walked
    · exact .inl (hseen c hw)
    · exact traverse_covers h (found_enum.mpr (.root (Finset.mem_toList.mpr hc) hw))
  · intro c hc hcw next hl d hd
    by_cases hw : d ∈ walked
    · exact .inl (hseen d hw)
    · have hv : Visited git db wanted walked c := ((((walk_eq_ok h).2 c).mp hc).resolve_left hcw).1
      exact traverse_covers h (found_enum.mpr (.child hv hl hd hw))

end

/-! ## What git answers -/

/-- The text that `git cat-file commit` prints when it succeeds is that of a
commit object. -/
def PrintsCommits (git : Git D) : Prop :=
  ∀ (db : D) (sha : String) (out : CmdOutput), git.catFileCommit db sha = some out →
    out.success = true → ∃ co : CommitObject, out.stdout = co.text

/-- What the helper relies on: `local_ db` are the names of the local objects,
and a pack only adds objects. -/
structure GitSpec (git : Git D) (g : ObjectGraph) (local_ : D → Set CommitHash) : Prop where
  revParse_yes : ∀ (db : D) (c : CommitHash) (co : CommitObject), PeelsIn g (local_ db) c co →
    ∃ out, git.revParse db (hexEncodeCommit c ++ "^{commit}") = some out ∧ out.code = some 0
  revParse_no : ∀ (db : D) (c : CommitHash), (∀ co, ¬ PeelsIn g (local_ db) c co) →
    ∃ out, git.revParse db (hexEncodeCommit c ++ "^{commit}") = some out ∧ out.code = some 1
  catFile_yes : ∀ (db : D) (c : CommitHash), c ∈ local_ db →
    ∃ out, git.catFileExists db (hexEncodeCommit c) = some out ∧ out.code = some 0
  catFile_no : ∀ (db : D) (c : CommitHash), c ∉ local_ db →
    ∃ out, git.catFileExists db (hexEncodeCommit c) = some out ∧ out.code = some 1
  catFileCommit : ∀ (db : D) (c : CommitHash) (co : CommitObject), PeelsIn g (local_ db) c co →
    ∃ out, git.catFileCommit db (hexEncodeCommit c) = some out ∧ out.code = some 0 ∧
      out.stdout = co.text
  indexPack : ∀ (db : D) (pack : Bytes), local_ db ⊆ local_ (git.indexPack db pack).2

section

variable {git : Git D} {g : ObjectGraph} {local_ : D → Set CommitHash} {db : D}

theorem gitCommitParents_ne_panicked (h : PrintsCommits git) (sha : String) :
    gitCommitParents git db sha ≠ .error .panicked := by
  intro hp
  rw [gitCommitParents] at hp
  split at hp
  · cases hp
  · next out heq =>
      split at hp
      · next hs =>
          obtain ⟨co, hco⟩ := h db sha out heq hs
          rw [hco, parentLines_text] at hp
          cases hp
      · cases hp

theorem askGit_ne_panicked {cmd what : String} (out : Option CmdOutput) :
    askGit cmd what out ≠ .error .panicked := by
  intro hp
  cases out with
  | none => cases hp
  | some out =>
      rw [askGit] at hp
      split_ifs at hp
      cases hp

/-- A visit does not panic. -/
theorem lookUp_ne_panicked (h : PrintsCommits git) (c : CommitHash) :
    lookUp git db c ≠ .error .panicked := by
  intro hp
  rcases bind_eq_error.mp hp with hp | ⟨isCommit, -, hp⟩
  · exact askGit_ne_panicked _ hp
  cases isCommit with
  | true =>
      rcases bind_eq_error.mp hp with hp | ⟨parents, -, hp⟩
      · exact gitCommitParents_ne_panicked h _ hp
      · cases hp
  | false =>
      rcases bind_eq_error.mp hp with hp | ⟨isLocal, -, hp⟩
      · exact askGit_ne_panicked _ hp
      · cases isLocal <;> cases hp

/-- A commit, or a tag of one, leads to the parents. -/
theorem GitSpec.lookUp_commit (hg : GitSpec git g local_) {c : CommitHash} {co : CommitObject}
    (h : PeelsIn g (local_ db) c co) : lookUp git db c = .ok (some co.parents) := by
  obtain ⟨out, hout, hcode⟩ := hg.revParse_yes db c co h
  obtain ⟨out', hout', hcode', htext⟩ := hg.catFileCommit db c co h
  have hs : out'.success = true := by rw [CmdOutput.success, hcode']; rfl
  have hp : gitCommitParents git db (hexEncodeCommit c) = .ok co.parents := by
    rw [gitCommitParents, hout']
    dsimp only
    rw [if_pos hs, htext, parentLines_text]
  rw [lookUp, commitExists, hout, askGit_yes hcode, hp]
  rfl

theorem GitSpec.commitExists_no (hg : GitSpec git g local_) {c : CommitHash}
    (h : ∀ co, ¬ PeelsIn g (local_ db) c co) : commitExists git db (hexEncodeCommit c) = .ok false := by
  obtain ⟨out, hout, hcode⟩ := hg.revParse_no db c h
  rw [commitExists, hout, askGit_no hcode]

/-- Another local object leads nowhere. -/
theorem GitSpec.lookUp_other (hg : GitSpec git g local_) {c : CommitHash} (hc : c ∈ local_ db)
    (h : ∀ co, ¬ PeelsIn g (local_ db) c co) : lookUp git db c = .ok (some []) := by
  obtain ⟨out, hout, hcode⟩ := hg.catFile_yes db c hc
  rw [lookUp, hg.commitExists_no h, anyObjectExists, hout, askGit_yes hcode]
  rfl

theorem GitSpec.lookUp_missing (hg : GitSpec git g local_) {c : CommitHash} (hc : c ∉ local_ db) :
    lookUp git db c = .ok none := by
  obtain ⟨out, hout, hcode⟩ := hg.catFile_no db c hc
  rw [lookUp, hg.commitExists_no fun co h => hc h.mem, anyObjectExists, hout, askGit_no hcode]
  rfl

/-- **A visit**, over objects. -/
theorem GitSpec.lookUp_cases (hg : GitSpec git g local_) (db : D) (c : CommitHash) :
    (c ∉ local_ db ∧ lookUp git db c = .ok none) ∨
      (∃ co, PeelsIn g (local_ db) c co ∧ lookUp git db c = .ok (some co.parents)) ∨
      (c ∈ local_ db ∧ (∀ co, ¬ PeelsIn g (local_ db) c co) ∧ lookUp git db c = .ok (some [])) := by
  by_cases hp : ∃ co, PeelsIn g (local_ db) c co
  · rcases hp with ⟨co, hp⟩
    exact .inr (.inl ⟨co, hp, hg.lookUp_commit hp⟩)
  · have hp : ∀ co, ¬ PeelsIn g (local_ db) c co := not_exists.mp hp
    by_cases hc : c ∈ local_ db
    · exact .inr (.inr ⟨hc, hp, hg.lookUp_other hc hp⟩)
    · exact .inl ⟨hc, hg.lookUp_missing hc⟩

theorem GitSpec.lookUp_none_iff (hg : GitSpec git g local_) {c : CommitHash} :
    lookUp git db c = .ok none ↔ c ∉ local_ db := by
  refine ⟨fun h hc => ?_, hg.lookUp_missing⟩
  rcases hg.lookUp_cases db c with ⟨hn, -⟩ | ⟨co, -, hl⟩ | ⟨-, -, hl⟩
  · exact hn hc
  all_goals
    rw [hl] at h
    cases h

/-- What is visited belongs to the history of a wanted commit. -/
theorem GitSpec.visited_history (hg : GitSpec git g local_) {wanted walked : Finset CommitHash}
    {c : CommitHash} (h : Visited git db wanted walked c) : ∃ w ∈ wanted, History g w c := by
  induction h with
  | root h _ => exact ⟨_, Finset.mem_toList.mp h, .refl⟩
  | @child c d next _ hl hd _ ih =>
      rcases ih with ⟨w, hw, hwc⟩
      refine ⟨w, hw, hwc.trans ?_⟩
      rcases hg.lookUp_cases db c with ⟨-, hl'⟩ | ⟨co, hp, hl'⟩ | ⟨-, -, hl'⟩
      · rw [hl'] at hl
        cases hl
      · rw [hl'] at hl
        cases hl
        exact hp.history hd
      · rw [hl'] at hl
        cases hl
        cases hd

end

/-! ## A repository that answers so -/

open Classical in
/-- A repository as the set of its local objects; `packObjects` are the objects
in a pack. -/
noncomputable def refGit (g : ObjectGraph) (packObjects : Bytes → Set CommitHash) :
    Git (Set CommitHash) where
  revParse db rev :=
    some ⟨some (if ∃ c co, rev = hexEncodeCommit c ++ "^{commit}" ∧ PeelsIn g db c co then 0 else 1),
      "", [], []⟩
  catFileExists db sha := some ⟨some (if ∃ c ∈ db, sha = hexEncodeCommit c then 0 else 1), "", [], []⟩
  catFileCommit db sha :=
    if h : ∃ co c, sha = hexEncodeCommit c ∧ PeelsIn g db c co then
      some ⟨some 0, "", h.choose.text, []⟩
    else some ⟨some 128, "", [], []⟩
  indexPack db pack := (.ok ⟨some 0, "", [], []⟩, db ∪ packObjects pack)

section

variable {g : ObjectGraph} {packObjects : Bytes → Set CommitHash}

theorem hexEncodeCommit_inj {c d : CommitHash} (h : hexEncodeCommit c = hexEncodeCommit d) : c = d :=
  Vector.toList_inj.mp (hexEncode_inj h)

theorem refGit_spec : GitSpec (refGit g packObjects) g id where
  revParse_yes db c co h := by
    refine ⟨_, rfl, ?_⟩
    dsimp only
    rw [if_pos ⟨c, co, rfl, h⟩]
  revParse_no db c h := by
    refine ⟨_, rfl, ?_⟩
    dsimp only
    rw [if_neg]
    rintro ⟨d, co, heq, hd⟩
    have hcd : hexEncodeCommit c = hexEncodeCommit d := (String.append_left_inj _).mp heq
    exact h co (hexEncodeCommit_inj hcd ▸ hd)
  catFile_yes db c h := by
    refine ⟨_, rfl, ?_⟩
    dsimp only
    rw [if_pos ⟨c, h, rfl⟩]
  catFile_no db c h := by
    refine ⟨_, rfl, ?_⟩
    dsimp only
    rw [if_neg]
    rintro ⟨d, hd, heq⟩
    exact h (hexEncodeCommit_inj heq ▸ hd)
  catFileCommit db c co h := by
    have hex : ∃ co' c', hexEncodeCommit c = hexEncodeCommit c' ∧ PeelsIn g db c' co' :=
      ⟨co, c, rfl, h⟩
    have hco : hex.choose = co := by
      rcases hex.choose_spec with ⟨d, heq, hd⟩
      cases hexEncodeCommit_inj heq
      exact hd.unique h
    refine ⟨_, dif_pos hex, rfl, ?_⟩
    rw [← hco]
  indexPack _ _ := Set.subset_union_left

theorem refGit_printsCommits : PrintsCommits (refGit g packObjects) := by
  intro db sha out h hs
  dsimp only [refGit] at h
  split at h
  · cases h
    exact ⟨_, rfl⟩
  · cases h
    cases hs

/-- Installing a pack adds its objects. -/
theorem installPack_refGit (db : Set CommitHash) (pack : Bytes) :
    installPack (refGit g packObjects) db pack = .ok (db ∪ packObjects pack) := rfl

end

end FreenetGit
