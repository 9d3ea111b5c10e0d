/-
# `FreenetGit.Rounds` — what a fetch asks for, round by round

A fetch asks for the packs of some commits, walks over what they hold, and asks for the
commits it finds missing; then it walks again.  `asked` is the set of commits asked for
after some rounds, over the object graph and one pack for each commit.  `PacksSuffice`
says that the packs asked for in all rounds hold everything that the target reaches.

A round that brings no new object is the last one that matters (`held_settled`), so the
packs suffice if and only if those of such a round do (`packsSuffice_iff_of_settled`).
-/
import FreenetGit.Complete

namespace FreenetGit

section

variable (g : ObjectGraph) (pack : CommitHash → Set CommitHash) (t : CommitHash)

/-- The objects in the packs of `W`. -/
def Held (W : Set CommitHash) : Set CommitHash := {o | ∃ f ∈ W, o ∈ pack f}

/-- The commits that a walk from `W` comes to and that no pack of `W` holds. -/
def Lacking (W : Set CommitHash) : Set CommitHash :=
  {c | Met g (Held pack W) W c ∧ c ∉ Held pack W}

/-- The commits asked for after some rounds: at first the target, then also what a walk over the
packs so far finds missing. -/
def asked : Nat → Set CommitHash
  | 0 => {t}
  | k + 1 => asked k ∪ Lacking g pack (asked k)

/-- The packs asked for in all rounds hold everything that the target reaches. -/
def PacksSuffice : Prop := ∀ o, Reach g t o → ∃ k, o ∈ Held pack (asked g pack t k)

end

section

variable {g : ObjectGraph} {pack : CommitHash → Set CommitHash} {t c : CommitHash}
  {L V W : Set CommitHash} {j k : Nat}

theorem held_mono (h : V ⊆ W) : Held pack V ⊆ Held pack W := by
  rintro o ⟨f, hf, ho⟩
  exact ⟨f, h hf, ho⟩

theorem held_union : Held pack (V ∪ W) = Held pack V ∪ Held pack W := by
  ext o
  constructor
  · rintro ⟨f, hf | hf, ho⟩
    · exact .inl ⟨f, hf, ho⟩
    · exact .inr ⟨f, hf, ho⟩
  · exact fun h => h.elim (fun h => held_mono Set.subset_union_left h)
      fun h => held_mono Set.subset_union_right h

theorem Met.history (h : Met g L W c) : ∃ w ∈ W, History g w c := by
  induction h with
  | want h => exact ⟨_, h, .refl⟩
  | parent _ hc hp ih =>
      obtain ⟨w, hw, hwc⟩ := ih
      exact ⟨w, hw, hwc.trans (hc.history hp)⟩

/-- Where the one commit peels to nothing, a walk comes to nothing else. -/
theorem Met.eq_of_not_peels (h : Met g L {t} c) (ht : ∀ co, ¬ PeelsIn g L t co) : c = t := by
  induction h with
  | want h => exact h
  | parent _ hc _ ih => exact absurd (ih ▸ hc) (ht _)

/-- Commits that were met may be wanted as well. -/
theorem Met.of_met (h : Met g L V c) (hV : ∀ v ∈ V, Met g L W v) : Met g L W c := by
  induction h with
  | want h => exact hV _ h
  | parent _ hc hp ih => exact ih.parent hc hp

theorem asked_succ : asked g pack t k ⊆ asked g pack t (k + 1) := Set.subset_union_left

theorem asked_mono (h : j ≤ k) : asked g pack t j ⊆ asked g pack t k := by
  induction h with
  | refl => exact Set.Subset.rfl
  | step _ ih => exact ih.trans asked_succ

theorem asked_history (h : c ∈ asked g pack t k) : History g t c := by
  induction k generalizing c with
  | zero => exact h ▸ .refl
  | succ k ih =>
      rcases h with h | ⟨h, -⟩
      · exact ih h
      · obtain ⟨w, hw, hwc⟩ := h.history
        exact (ih hw).trans hwc

/-- **A round without new objects ends the fetch**: no later one brings any. -/
theorem held_settled (h : Held pack (asked g pack t (k + 1)) = Held pack (asked g pack t k)) :
    Held pack (asked g pack t (k + 1 + j)) = Held pack (asked g pack t k) := by
  -- what is missing after the round was missing, and asked for, in it
  have hlast : Lacking g pack (asked g pack t (k + 1)) ⊆ asked g pack t (k + 1) := by
    rintro c ⟨hmet, hc⟩
    rw [h] at hmet hc
    refine .inr ⟨hmet.of_met ?_, hc⟩
    rintro v (hv | hv)
    · exact .want hv
    · exact hv.1
  have hasked : asked g pack t (k + 1 + j) = asked g pack t (k + 1) := by
    induction j with
    | zero => rfl
    | succ j ih =>
        show asked g pack t (k + 1 + j) ∪ Lacking g pack (asked g pack t (k + 1 + j)) = _
        rw [ih, Set.union_eq_left.mpr hlast]
  rw [hasked, h]

/-- The packs suffice if and only if those of a round without new objects do. -/
theorem packsSuffice_iff_of_settled
    (h : Held pack (asked g pack t (k + 1)) = Held pack (asked g pack t k)) :
    PacksSuffice g pack t ↔ ∀ o, Reach g t o → o ∈ Held pack (asked g pack t k) := by
  constructor
  · intro hsuffice o ho
    obtain ⟨j, hj⟩ := hsuffice o ho
    rw [← held_settled (j := j) h]
    exact held_mono (asked_mono (by omega)) hj
  · exact fun hall o ho => ⟨k, hall o ho⟩

/-- A pack of the whole closure suffices. -/
theorem packsSuffice_of_whole (h : ∀ o, Reach g t o → o ∈ pack t) : PacksSuffice g pack t :=
  fun o ho => ⟨0, t, rfl, h o ho⟩

/-- All commits asked for, if the parents of commits are commits. -/
theorem Met.isCommit (hparents : ∀ c co, Reach g t c → g c = .commit co →
    ∀ p ∈ co.parents, ∃ co', g p = .commit co')
    (hW : ∀ w ∈ W, History g t w ∧ (w = t ∨ ∃ co, g w = .commit co)) (h : Met g L W c) :
    c = t ∨ ∃ co, g c = .commit co := by
  cases h with
  | want h => exact (hW c h).2
  | @parent b _ co h hb hp =>
      obtain ⟨w, hw, hwb⟩ := h.history
      obtain ⟨x, hbx, hx⟩ := hb.exists_commit
      exact .inr (hparents x co (History.reach (((hW w hw).1.trans hwb).trans hbx)) hx c hp)

theorem asked_isCommit (hparents : ∀ c co, Reach g t c → g c = .commit co →
    ∀ p ∈ co.parents, ∃ co', g p = .commit co') (h : c ∈ asked g pack t k) :
    c = t ∨ ∃ co, g c = .commit co := by
  induction k generalizing c with
  | zero => exact .inl h
  | succ k ih =>
      rcases h with h | ⟨h, -⟩
      · exact ih h
      · exact h.isCommit hparents fun w hw => ⟨asked_history hw, ih hw⟩

end

end FreenetGit
