/-
# `FreenetGit.LinearHistory` — a branch as a line of commits

On a line of commits the number of ancestors tells the commits apart
(`LinearHistory.eq_of_count_eq`), a tag lists what its commit lists, and what is
listed from a commit without an earlier one tells that earlier one
(`LinearHistory.eq_of_listed_eq`).  At the end of the file: a line of three commits.
-/
import FreenetGit.PushFetch

namespace FreenetGit

open Lib

/-! ## Linear histories -/

def IsCommit (g : ObjectGraph) (c : CommitHash) : Prop := ∃ co, g c = .commit co

def IsTag (g : ObjectGraph) (c : CommitHash) : Prop := ∃ t, g c = .tag t

/-- Of any two commits of the line one is an ancestor of the other; no tag is reached from
them. -/
structure LinearHistory (g : ObjectGraph) (line : Set CommitHash) : Prop where
  commit : ∀ c ∈ line, IsCommit g c
  linear : ∀ c ∈ line, ∀ d ∈ line, Reach g c d ∨ Reach g d c
  tagless : ∀ c ∈ line, ∀ o, Reach g c o → ¬ IsTag g o

/-- Objects are named by their content, so none reaches itself through others. -/
def Acyclic (g : ObjectGraph) : Prop := ∀ a b, Reach g a b → Reach g b a → a = b

/-- `t` is the commit `c`, or a tag that peels to it. -/
inductive PeelsTo (g : ObjectGraph) : CommitHash → CommitHash → Prop
  | commit {c : CommitHash} (h : IsCommit g c) : PeelsTo g c c
  | tag {t u c : CommitHash} (h : g t = .tag u) (hu : PeelsTo g u c) : PeelsTo g t c

/-- `rev-list --count`: the number of commits reachable from the tip. -/
noncomputable def commitCount (g : ObjectGraph) (t : CommitHash) : Nat :=
  Set.ncard {c | Reach g t c ∧ IsCommit g c}

/-- `rev-list --objects`: what the want reaches and the have does not. -/
def listed (g : ObjectGraph) (have_ : Option CommitHash) (want : CommitHash) : Set CommitHash :=
  {o | Reach g want o ∧ ∀ h ∈ have_, ¬ Reach g h o}

section

variable {g : ObjectGraph} {line : Set CommitHash} {c d h o t : CommitHash}

theorem IsCommit.not_tag (hc : IsCommit g c) : ¬ IsTag g c := by
  rintro ⟨t, ht⟩
  obtain ⟨co, hco⟩ := hc
  cases hco.symm.trans ht

/-- Beyond the tags, a tag reaches what its commit reaches. -/
theorem PeelsTo.reach_iff (h : PeelsTo g t c) (ho : ¬ IsTag g o) : Reach g t o ↔ Reach g c o := by
  induction h with
  | commit _ => exact Iff.rfl
  | @tag t u c ht _ ih =>
      rw [← ih]
      constructor
      · intro hr
        rcases Relation.ReflTransGen.cases_head hr with rfl | ⟨v, hv, hr⟩
        · exact absurd ⟨u, ht⟩ ho
        · rw [ht] at hv
          rwa [← List.mem_singleton.mp hv]
      · intro hr
        refine .head ?_ hr
        rw [ht]
        exact List.mem_singleton_self _

theorem PeelsTo.commitCount_eq (h : PeelsTo g t c) : commitCount g t = commitCount g c := by
  rw [commitCount, commitCount]
  congr 1
  ext o
  exact and_congr_left fun ho => h.reach_iff ho.not_tag

namespace LinearHistory

variable (hl : LinearHistory g line) (hacyclic : Acyclic g)

include hl

/-- From a commit of the line, a tag excludes what its commit excludes. -/
theorem listed_eq (hd : d ∈ line) (h : PeelsTo g t c) :
    listed g (some t) d = listed g (some c) d := by
  ext o
  refine and_congr_right fun hr => ?_
  have ho := hl.tagless d hd o hr
  simp only [Option.mem_some_iff, forall_eq', h.reach_iff ho]

include hacyclic

/-- **Along the line the number of ancestors grows.** -/
theorem commitCount_lt (hd : d ∈ line) (hr : Reach g d c) (hne : c ≠ d) :
    commitCount g c < commitCount g d := by
  refine Set.ncard_lt_ncard ⟨fun o ho => ⟨hr.trans ho.1, ho.2⟩, fun hsub => ?_⟩ (Set.toFinite _)
  obtain ⟨hcd, -⟩ := hsub ⟨Relation.ReflTransGen.refl, hl.commit d hd⟩
  exact hne (hacyclic c d hcd hr)

theorem reach_of_count_le (hc : c ∈ line) (hd : d ∈ line)
    (h : commitCount g c ≤ commitCount g d) : Reach g d c := by
  rcases hl.linear c hc d hd with hr | hr
  · by_cases hne : d = c
    · rw [hne]
      exact .refl
    · exact absurd (hl.commitCount_lt hacyclic hc hr hne) h.not_gt
  · exact hr

theorem eq_of_count_eq (hc : c ∈ line) (hd : d ∈ line)
    (h : commitCount g c = commitCount g d) : c = d :=
  hacyclic c d (hl.reach_of_count_le hacyclic hd hc h.ge) (hl.reach_of_count_le hacyclic hc hd h.le)

/-- **Two commits exclude the same** from a later one only if they are the same. -/
theorem eq_of_listed_eq (hc : c ∈ line) (hh : h ∈ line) (hd : d ∈ line) (hr : Reach g d h)
    (hne : h ≠ d) (heq : listed g (some c) d = listed g (some h) d) : c = h := by
  have hd_mem : d ∈ listed g (some h) d :=
    ⟨.refl, fun b hb hbd => hne (hacyclic h d (Option.mem_some_iff.mp hb ▸ hbd) hr)⟩
  rcases hl.linear c hc h hh with hch | hhc
  · -- `c` is after `h`: before `d` it would be listed, and from `d` on nothing is
    by_contra hcne
    have hcd : ¬ Reach g c d := by
      rw [← heq] at hd_mem
      exact hd_mem.2 c rfl
    have hdc : Reach g d c := (hl.linear c hc d hd).resolve_left hcd
    have hc_mem : c ∈ listed g (some h) d :=
      ⟨hdc, fun b hb hbc => hcne (hacyclic c h hch (Option.mem_some_iff.mp hb ▸ hbc))⟩
    rw [← heq] at hc_mem
    exact hc_mem.2 c rfl .refl
  · by_contra hcne
    have hh_mem : h ∈ listed g (some c) d :=
      ⟨hr, fun b hb hbh => hcne (hacyclic c h (Option.mem_some_iff.mp hb ▸ hbh) hhc)⟩
    rw [heq] at hh_mem
    exact hh_mem.2 h rfl .refl

end LinearHistory

end

namespace Sample

/-- The commits 1, 2 and 3, one after another. -/
def lineGraph : ObjectGraph := fun c =>
  if c = sha 3 then .commit ⟨sha 0, [sha 2], [], []⟩
  else if c = sha 2 then .commit ⟨sha 0, [sha 1], [], []⟩
  else if c = sha 1 then .commit ⟨sha 0, [], [], []⟩
  else .tree []

def line : Set CommitHash := {sha 1, sha 2, sha 3}

theorem lineGraph_three : lineGraph (sha 3) = .commit ⟨sha 0, [sha 2], [], []⟩ := if_pos rfl

theorem lineGraph_two : lineGraph (sha 2) = .commit ⟨sha 0, [sha 1], [], []⟩ := by
  rw [lineGraph, if_neg (by decide), if_pos rfl]

theorem lineGraph_one : lineGraph (sha 1) = .commit ⟨sha 0, [], [], []⟩ := by
  rw [lineGraph, if_neg (by decide), if_neg (by decide), if_pos rfl]

theorem lineGraph_other {c : CommitHash} (h : c ∉ line) : lineGraph c = .tree [] := by
  simp only [line, Set.mem_insert_iff, Set.mem_singleton_iff, not_or] at h
  rw [lineGraph, if_neg h.2.2, if_neg h.2.1, if_neg h.1]

theorem reach_other {c o : CommitHash} (h : c ∉ line) : Reach lineGraph c o ↔ o = c := by
  refine ⟨fun hr => ?_, fun heq => heq ▸ .refl⟩
  rcases Relation.ReflTransGen.cases_head hr with heq | ⟨b, hb, -⟩
  · exact heq.symm
  · rw [lineGraph_other h] at hb
    cases hb

theorem zero_notMem_line : sha 0 ∉ line := by
  simp only [line, Set.mem_insert_iff, Set.mem_singleton_iff]
  decide

/-- A commit reaches itself, its tree and what its parents reach. -/
theorem reach_commit {c o : CommitHash} {parents : List CommitHash}
    (h : lineGraph c = .commit ⟨sha 0, parents, [], []⟩) :
    Reach lineGraph c o ↔ o = c ∨ o = sha 0 ∨ ∃ p ∈ parents, Reach lineGraph p o := by
  have hlinks : (lineGraph c).links = sha 0 :: parents := by
    rw [h]
    rfl
  rw [Reach, Relation.ReflTransGen.cases_head_iff, eq_comm]
  refine or_congr_right ?_
  simp only [hlinks, List.mem_cons]
  constructor
  · rintro ⟨b, rfl | hb, hr⟩
    · exact .inl ((reach_other zero_notMem_line).mp hr)
    · exact .inr ⟨b, hb, hr⟩
  · rintro (rfl | ⟨b, hb, hr⟩)
    · exact ⟨_, .inl rfl, .refl⟩
    · exact ⟨b, .inr hb, hr⟩

theorem reach_one {o : CommitHash} : Reach lineGraph (sha 1) o ↔ o = sha 1 ∨ o = sha 0 := by
  rw [reach_commit lineGraph_one]
  simp

theorem reach_two {o : CommitHash} :
    Reach lineGraph (sha 2) o ↔ o = sha 2 ∨ o = sha 0 ∨ o = sha 1 := by
  rw [reach_commit lineGraph_two]
  simp only [List.mem_singleton, exists_eq_left, reach_one]
  tauto

theorem reach_three {o : CommitHash} :
    Reach lineGraph (sha 3) o ↔ o = sha 3 ∨ o = sha 0 ∨ o = sha 2 ∨ o = sha 1 := by
  rw [reach_commit lineGraph_three]
  simp only [List.mem_singleton, exists_eq_left, reach_two]
  tauto

theorem mem_line {c : CommitHash} : c ∈ line ↔ c = sha 1 ∨ c = sha 2 ∨ c = sha 3 := Iff.rfl

/-- The three commits are the commits. -/
theorem isCommit_iff {c : CommitHash} : IsCommit lineGraph c ↔ c ∈ line := by
  constructor
  · rintro ⟨co, hco⟩
    by_contra hc
    rw [lineGraph_other hc] at hco
    cases hco
  · rintro (rfl | rfl | rfl)
    · exact ⟨_, lineGraph_one⟩
    · exact ⟨_, lineGraph_two⟩
    · exact ⟨_, lineGraph_three⟩

theorem not_isTag {c : CommitHash} : ¬ IsTag lineGraph c := by
  rintro ⟨t, ht⟩
  by_cases hc : c ∈ line
  · exact (isCommit_iff.mpr hc).not_tag ⟨t, ht⟩
  · rw [lineGraph_other hc] at ht
    cases ht

/-- What the first commit reaches, every commit of the line reaches. -/
theorem reach_of_reach_one {c o : CommitHash} (hc : c ∈ line) (h : Reach lineGraph (sha 1) o) :
    Reach lineGraph c o := by
  rcases mem_line.mp hc with rfl | rfl | rfl
  · exact h
  · exact (reach_two.mpr (.inr (.inr rfl))).trans h
  · exact (reach_three.mpr (.inr (.inr (.inr rfl)))).trans h

theorem line_no_return : ∀ a, ∀ b ∈ (lineGraph a).links, ¬ Reach lineGraph b a := by
  refine acyclic_of_rank
    (fun c => if c = sha 3 then 3 else if c = sha 2 then 2 else if c = sha 1 then 1 else 0) ?_
  intro a b hb
  by_cases ha : a ∈ line
  · rcases mem_line.mp ha with rfl | rfl | rfl
    · rw [lineGraph_one] at hb
      cases List.mem_singleton.mp hb
      decide
    · rw [lineGraph_two] at hb
      rcases List.mem_cons.mp hb with rfl | hb
      · decide
      · cases List.mem_singleton.mp hb
        decide
    · rw [lineGraph_three] at hb
      rcases List.mem_cons.mp hb with rfl | hb
      · decide
      · cases List.mem_singleton.mp hb
        decide
  · rw [lineGraph_other ha] at hb
    cases hb

theorem line_acyclic : Acyclic lineGraph := fun _ _ => eq_of_reach line_no_return

theorem line_linear : LinearHistory lineGraph line where
  commit c hc := isCommit_iff.mpr hc
  linear c hc d hd := by
    have h₃₂ : Reach lineGraph (sha 3) (sha 2) := reach_three.mpr (.inr (.inr (.inl rfl)))
    rcases mem_line.mp hc with rfl | rfl | rfl <;> rcases mem_line.mp hd with rfl | rfl | rfl
    · exact .inl .refl
    · exact .inr (reach_of_reach_one hd .refl)
    · exact .inr (reach_of_reach_one hd .refl)
    · exact .inl (reach_of_reach_one hc .refl)
    · exact .inl .refl
    · exact .inr h₃₂
    · exact .inl (reach_of_reach_one hc .refl)
    · exact .inl h₃₂
    · exact .inl .refl
  tagless c _ o _ := not_isTag

end Sample

end FreenetGit
