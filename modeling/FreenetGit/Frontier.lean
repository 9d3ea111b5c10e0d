/-
# `FreenetGit.Frontier` — the missing edge of the local history

What `walk_unresolved_parents` returns, in terms of the local objects alone.  A
commit is reached from the wanted ones through local commits, an annotated tag
standing for the commit it peels to.  What was walked before is skipped; nothing is
hidden by that, as long as the parents of what was walked are walked or wanted.
-/
import FreenetGit.Walk

namespace FreenetGit

open Lib

/-- `p` is a parent of `c`, a local commit or a tag of one. -/
def LocalParent (g : ObjectGraph) (S : Set CommitHash) (c p : CommitHash) : Prop :=
  ∃ co, PeelsIn g S c co ∧ p ∈ co.parents

/-- `c` is reached from the wanted commits through local commits. -/
def Reached (g : ObjectGraph) (S : Set CommitHash) (wanted : Finset CommitHash) (c : CommitHash) :
    Prop :=
  ∃ w ∈ wanted, Relation.ReflTransGen (LocalParent g S) w c

/-- What was walked is local, and its parents are walked or wanted. -/
def WalkInv (g : ObjectGraph) (S : Set CommitHash) (walked wanted : Finset CommitHash) : Prop :=
  ∀ c ∈ walked, c ∈ S ∧ ∀ p, LocalParent g S c p → p ∈ walked ∨ p ∈ wanted

variable {D : Type} {git : Git D} {g : ObjectGraph} {local_ : D → Set CommitHash} {db : D}
  {order : HashOrder CommitHash} {wanted walked : Finset CommitHash} {c : CommitHash}

/-- A visit leads to the parents. -/
theorem GitSpec.lookUp_some (hg : GitSpec git g local_) {next : List CommitHash}
    (h : lookUp git db c = .ok (some next)) :
    c ∈ local_ db ∧ ∀ p, p ∈ next ↔ LocalParent g (local_ db) c p := by
  rcases hg.lookUp_cases db c with ⟨-, hl⟩ | ⟨co, hp, hl⟩ | ⟨hc, hno, hl⟩
  · cases hl.symm.trans h
  · cases hl.symm.trans h
    refine ⟨hp.mem, fun p => ⟨fun hmem => ⟨co, hp, hmem⟩, ?_⟩⟩
    rintro ⟨co', hp', hmem⟩
    rwa [hp.unique hp']
  · cases hl.symm.trans h
    refine ⟨hc, fun p => ⟨fun hmem => absurd hmem List.not_mem_nil, ?_⟩⟩
    rintro ⟨co, hp, -⟩
    exact absurd hp (hno co)

/-- Every visit returns. -/
theorem GitSpec.lookUp_returns (hg : GitSpec git g local_) (db : D) (c : CommitHash) :
    ∃ l, lookUp git db c = .ok l := by
  rcases hg.lookUp_cases db c with ⟨-, hl⟩ | ⟨co, -, hl⟩ | ⟨-, -, hl⟩
  all_goals exact ⟨_, hl⟩

theorem GitSpec.lookUp_local (hg : GitSpec git g local_) (hc : c ∈ local_ db) :
    ∃ next, lookUp git db c = .ok (some next) := by
  obtain ⟨l, hl⟩ := hg.lookUp_returns db c
  cases l with
  | none => exact absurd hc (hg.lookUp_none_iff.mp hl)
  | some next => exact ⟨next, hl⟩

/-- What is visited is reached. -/
theorem GitSpec.reached_of_visited (hg : GitSpec git g local_) (h : Visited git db wanted walked c) :
    Reached g (local_ db) wanted c := by
  induction h with
  | @root c hc _ => exact ⟨c, Finset.mem_toList.mp hc, .refl⟩
  | child _ hl hd _ ih =>
      obtain ⟨w, hw, hreach⟩ := ih
      exact ⟨w, hw, hreach.tail (((hg.lookUp_some hl).2 _).mp hd)⟩

/-- **What is reached is walked or visited**: by induction along the path, a walked commit
hands it on to a parent that is walked or wanted. -/
theorem GitSpec.visited_of_reached (hg : GitSpec git g local_)
    (hinv : WalkInv g (local_ db) walked wanted) (h : Reached g (local_ db) wanted c) :
    c ∈ walked ∨ Visited git db wanted walked c := by
  have hroot : ∀ w ∈ wanted, w ∈ walked ∨ Visited git db wanted walked w := by
    intro w hw
    by_cases hwalked : w ∈ walked
    · exact .inl hwalked
    · exact .inr (.root (Finset.mem_toList.mpr hw) hwalked)
  obtain ⟨w, hw, hreach⟩ := h
  induction hreach with
  | refl => exact hroot w hw
  | @tail b c _ hparent ih =>
      rcases ih with hb | hb
      · rcases (hinv b hb).2 c hparent with hc | hc
        · exact .inl hc
        · exact hroot c hc
      · by_cases hc : c ∈ walked
        · exact .inl hc
        · obtain ⟨co, hp, hmem⟩ := hparent
          exact .inr (.child hb (hg.lookUp_commit hp) hmem hc)

/-- **The walk returns exactly the missing frontier.**  It returns; the commits it returns are
those that are reached and are not local; afterwards what is walked is local, contains every
local object that is reached, and has its parents walked, wanted or returned. -/
theorem walk_frontier (hg : GitSpec git g local_) (hinv : WalkInv g (local_ db) walked wanted) :
    ∃ unresolved walked',
      walkUnresolvedParents git db order wanted walked = .ok (unresolved, walked') ∧
      (∀ c, c ∈ unresolved ↔ c ∉ local_ db ∧ Reached g (local_ db) wanted c) ∧
      (∀ c ∈ walked', c ∈ local_ db) ∧
      (∀ c ∈ local_ db, Reached g (local_ db) wanted c → c ∈ walked') ∧
      WalkInv g (local_ db) walked' (wanted ∪ unresolved) := by
  obtain ⟨⟨unresolved, walked'⟩, hwalk⟩ :
      ∃ r, walkUnresolvedParents git db order wanted walked = .ok r :=
    traverse_total fun c _ => hg.lookUp_returns db c
  obtain ⟨hunresolved, hwalked⟩ := walk_eq_ok hwalk
  have hlocal : ∀ c ∈ walked', c ∈ local_ db := by
    intro c hc
    rcases (hwalked c).mp hc with hc | ⟨-, next, hl⟩
    · exact (hinv c hc).1
    · exact (hg.lookUp_some hl).1
  refine ⟨unresolved, walked', hwalk, fun c => ?_, hlocal, fun c hc hreach => ?_, fun c hc => ?_⟩
  · rw [hunresolved, hg.lookUp_none_iff]
    constructor
    · rintro ⟨hvisited, hmissing⟩
      exact ⟨hmissing, hg.reached_of_visited hvisited⟩
    · rintro ⟨hmissing, hreach⟩
      rcases hg.visited_of_reached hinv hreach with hc | hvisited
      · exact absurd (hinv c hc).1 hmissing
      · exact ⟨hvisited, hmissing⟩
  · rw [hwalked]
    rcases hg.visited_of_reached hinv hreach with hc' | hvisited
    · exact .inl hc'
    · exact .inr ⟨hvisited, hg.lookUp_local hc⟩
  · refine ⟨hlocal c hc, fun p hparent => ?_⟩
    have hold : ∀ p, p ∈ walked → p ∈ walked' := fun p hp => (hwalked p).mpr (.inl hp)
    by_cases hcw : c ∈ walked
    · rcases (hinv c hcw).2 p hparent with hp | hp
      · exact .inl (hold p hp)
      · exact .inr (Finset.mem_union_left _ hp)
    · obtain ⟨co, hpeels, hmem⟩ := hparent
      rcases (walk_covers hwalk).2 c hc hcw _ (hg.lookUp_commit hpeels) p hmem with hp | hp
      · exact .inl hp
      · exact .inr (Finset.mem_union_right _ hp)

/-! A second walk: the commit was walked before its parent was there. -/

namespace Sample

def named (k : UInt8) : CommitHash := (zeros 20).set 0 k

/-- Three commits, each the parent of the next. -/
def chain : ObjectGraph := fun c =>
  if c = named 3 then .commit ⟨zeros 20, [named 2], [], []⟩
  else if c = named 2 then .commit ⟨zeros 20, [named 1], [], []⟩
  else if c = named 1 then .commit ⟨zeros 20, [], [], []⟩
  else .tree []

/-- What the download has left: the last commit and its parent. -/
def arrived : Set CommitHash := {named 3, named 2}

theorem chain_parent {S : Set CommitHash} {c p : CommitHash} (h : LocalParent chain S c p) :
    (c = named 3 ∧ p = named 2) ∨ (c = named 2 ∧ p = named 1) := by
  obtain ⟨co, hpeels, hp⟩ := h
  have hc : chain c = .commit co := by
    cases hpeels with
    | commit _ hc => exact hc
    | tag _ hc _ =>
        unfold chain at hc
        split_ifs at hc
  unfold chain at hc
  split_ifs at hc with h₃ h₂ h₁
  · cases hc
    exact .inl ⟨h₃, List.mem_singleton.mp hp⟩
  · cases hc
    exact .inr ⟨h₂, List.mem_singleton.mp hp⟩
  · cases hc
    cases hp

theorem chain_walkInv : WalkInv chain arrived {named 3} {named 3, named 2} := by
  intro c hc
  cases Finset.mem_singleton.mp hc
  refine ⟨.inl rfl, fun p hp => ?_⟩
  rcases chain_parent hp with ⟨-, rfl⟩ | ⟨h, -⟩
  · exact .inr (Finset.mem_insert_of_mem (Finset.mem_singleton_self _))
  · exact absurd h (by decide)

/-- Of the three commits only the first one is missing. -/
theorem chain_missing {c : CommitHash} :
    c ∉ arrived ∧ Reached chain arrived {named 3, named 2} c ↔ c = named 1 := by
  constructor
  · rintro ⟨hc, w, hw, hreach⟩
    cases hreach with
    | refl =>
        simp only [Finset.mem_insert, Finset.mem_singleton] at hw
        exact absurd hw hc
    | tail _ hparent =>
        rcases chain_parent hparent with ⟨-, rfl⟩ | ⟨-, rfl⟩
        · exact absurd (.inr rfl) hc
        · rfl
  · rintro rfl
    have htwo : PeelsIn chain arrived (named 2) ⟨zeros 20, [named 1], [], []⟩ := by
      refine .commit (.inr rfl) ?_
      rw [chain, if_neg (by decide), if_pos rfl]
    refine ⟨?_, named 2, Finset.mem_insert_of_mem (Finset.mem_singleton_self _),
      .single ⟨_, htwo, List.mem_singleton_self _⟩⟩
    rintro (h | h)
    · exact absurd h (by decide)
    · exact absurd h (by decide)

end Sample

/-- The walk goes on from the parent that was downloaded, and finds the commit before it. -/
theorem walk_frontier_second :
    ∃ unresolved walked',
      walkUnresolvedParents (refGit Sample.chain fun _ => ∅) Sample.arrived
        ⟨Finset.toList, Finset.coe_toList⟩ {Sample.named 3, Sample.named 2} {Sample.named 3} =
          .ok (unresolved, walked') ∧
      unresolved = {Sample.named 1} ∧ Sample.named 2 ∈ walked' := by
  obtain ⟨unresolved, walked', hwalk, hmem, -, hwalked, -⟩ :=
    @walk_frontier _ _ _ _ _ ⟨Finset.toList, Finset.coe_toList⟩ _ _ refGit_spec Sample.chain_walkInv
  refine ⟨unresolved, walked', hwalk, ?_, hwalked _ (.inr rfl) ⟨Sample.named 2, ?_, .refl⟩⟩
  · ext c
    rw [hmem, Finset.mem_singleton]
    exact Sample.chain_missing
  · exact Finset.mem_insert_of_mem (Finset.mem_singleton_self _)

end FreenetGit
