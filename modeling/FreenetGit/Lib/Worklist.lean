/-
# `Lib.Worklist` — a traversal that notes what is missing

Nodes are looked up one at a time: a node is absent (`none`), or present with
the nodes it leads to.  `traverse` keeps a stack of nodes to visit, the set of
nodes `seen` so far, whose successors are not visited again, and the set of the
absent nodes it met.  The set of seen nodes outlives the call: a later traversal
over a larger graph starts from it.  `traverse_eq_ok` says exactly what a call
returns, in terms of the nodes that can be `Found` past the seen ones.
-/
import Mathlib.Data.Set.Card
import Mathlib.Data.Finset.Insert

namespace Lib

variable {α ε : Type}

/-- Visit the stack `todo`; the result is the absent nodes and the seen ones. -/
def traverse [DecidableEq α] [Finite α] (look : α → Except ε (Option (List α))) :
    List α → Finset α → Finset α → Except ε (Finset α × Finset α)
  | [], seen, absent => .ok (absent, seen)
  | c :: todo, seen, absent =>
      if _h : c ∈ seen then traverse look todo seen absent
      else
        match look c with
        | .error e => .error e
        | .ok none => traverse look todo seen (insert c absent)
        | .ok (some next) =>
            traverse look ((next.filter (· ∉ insert c seen)).reverse ++ todo) (insert c seen) absent
termination_by todo seen => (Set.ncard {x | x ∉ seen}, todo.length)
decreasing_by
  · exact Prod.Lex.right _ (Nat.lt_succ_self _)
  · exact Prod.Lex.right _ (Nat.lt_succ_self _)
  · refine Prod.Lex.left _ _ (Set.ncard_lt_ncard ?_ (Set.toFinite _))
    refine ⟨fun x hx hs => hx (Finset.mem_insert_of_mem hs), fun hsub => ?_⟩
    exact hsub (show c ∉ seen from ‹_›) (Finset.mem_insert_self c seen)

/-- The nodes met from `todo` without going past a seen one. -/
inductive Found (look : α → Except ε (Option (List α))) (seen : Finset α) (todo : List α) :
    α → Prop
  | root {c : α} (h : c ∈ todo) (hs : c ∉ seen) : Found look seen todo c
  | child {c d : α} {next : List α} (h : Found look seen todo c) (hl : look c = .ok (some next))
      (hd : d ∈ next) (hs : d ∉ seen) : Found look seen todo d

section

variable {look : α → Except ε (Option (List α))} {seen absent : Finset α} {todo : List α}

theorem Found.not_seen {c : α} (h : Found look seen todo c) : c ∉ seen := by
  cases h with
  | root _ hs => exact hs
  | child _ _ _ hs => exact hs

theorem Found.mono {todo' : List α} (hsub : ∀ c ∈ todo, c ∈ todo' ∨ c ∈ seen) {c : α}
    (h : Found look seen todo c) : Found look seen todo' c := by
  induction h with
  | root h hs =>
      rcases hsub _ h with h | h
      · exact .root h hs
      · exact absurd h hs
  | child _ hl hd hs ih => exact .child ih hl hd hs

theorem found_nil {c : α} : ¬ Found look seen [] c := by
  intro h
  induction h with
  | root h _ => cases h
  | child _ _ _ _ ih => exact ih

/-- A seen node is skipped. -/
theorem found_cons_seen {c d : α} (hc : c ∈ seen) :
    Found look seen (c :: todo) d ↔ Found look seen todo d := by
  constructor
  · refine Found.mono fun x hx => ?_
    rcases List.mem_cons.mp hx with rfl | hx
    · exact .inr hc
    · exact .inl hx
  · exact Found.mono fun x hx => .inl (List.mem_cons_of_mem _ hx)

/-- An absent node leads nowhere. -/
theorem found_cons_absent {c d : α} (hc : c ∉ seen) (hl : look c = .ok none) :
    Found look seen (c :: todo) d ↔ d = c ∨ Found look seen todo d := by
  constructor
  · intro h
    induction h with
    | root h hs =>
        rcases List.mem_cons.mp h with rfl | h
        · exact .inl rfl
        · exact .inr (.root h hs)
    | child _ hx hd hs ih =>
        rcases ih with rfl | ih
        · rw [hl] at hx
          cases hx
        · exact .inr (.child ih hx hd hs)
  · rintro (rfl | h)
    · exact .root List.mem_cons_self hc
    · exact h.mono fun x hx => .inl (List.mem_cons_of_mem _ hx)

/-- A present node is replaced by its successors. -/
theorem found_cons_present [DecidableEq α] {c d : α} {next : List α} (hc : c ∉ seen)
    (hl : look c = .ok (some next)) :
    Found look seen (c :: todo) d ↔ d = c ∨
      Found look (insert c seen) ((next.filter (· ∉ insert c seen)).reverse ++ todo) d := by
  have hnew : ∀ {x}, x ∉ seen → x ≠ c → x ∉ insert c seen := by
    intro x hx hne h
    rcases Finset.mem_insert.mp h with h | h
    · exact hne h
    · exact hx h
  constructor
  · intro h
    induction h with
    | @root x h hs =>
        by_cases hx : x = c
        · exact .inl hx
        · refine .inr (.root (List.mem_append_right _ ?_) (hnew hs hx))
          exact (List.mem_cons.mp h).resolve_left hx
    | @child y x _ _ hy hd hs ih =>
        by_cases hx : x = c
        · exact .inl hx
        · right
          rcases ih with rfl | ih
          · rw [hl] at hy
            cases hy
            refine .root (List.mem_append_left _ (List.mem_reverse.mpr ?_)) (hnew hs hx)
            exact List.mem_filter.mpr ⟨hd, decide_eq_true (hnew hs hx)⟩
          · exact .child ih hy hd (hnew hs hx)
  · have hroot : Found look seen (c :: todo) c := .root List.mem_cons_self hc
    have hold : ∀ {x}, x ∉ insert c seen → x ∉ seen :=
      fun hx h => hx (Finset.mem_insert_of_mem h)
    rintro (rfl | h)
    · exact hroot
    · induction h with
      | root h hs =>
          rcases List.mem_append.mp h with h | h
          · exact .child hroot hl (List.mem_of_mem_filter (List.mem_reverse.mp h)) (hold hs)
          · exact .root (List.mem_cons_of_mem _ h) (hold hs)
      | child _ hy hd hs ih => exact .child ih hy hd (hold hs)

variable [DecidableEq α] [Finite α]

/-- **The result of a traversal**: the absent nodes found, and the seen nodes
with the present ones found. -/
theorem traverse_eq_ok : ∀ {todo : List α} {seen absent absent' seen' : Finset α},
    traverse look todo seen absent = .ok (absent', seen') →
      (∀ c, c ∈ absent' ↔ c ∈ absent ∨ (Found look seen todo c ∧ look c = .ok none)) ∧
      ∀ c, c ∈ seen' ↔ c ∈ seen ∨ (Found look seen todo c ∧ ∃ next, look c = .ok (some next)) := by
  intro todo seen absent absent' seen' h
  induction todo, seen, absent using traverse.induct look with
  | case1 seen absent =>
      rw [traverse] at h
      cases h
      exact ⟨fun c => (or_iff_left fun hf => found_nil hf.1).symm,
        fun c => (or_iff_left fun hf => found_nil hf.1).symm⟩
  | case2 c todo seen absent hc ih =>
      rw [traverse, dif_pos hc] at h
      simpa only [found_cons_seen hc] using ih h
  | case3 c todo seen absent hc _ hl =>
      rw [traverse, dif_neg hc, hl] at h
      cases h
  | case4 c todo seen absent hc hl ih =>
      rw [traverse, dif_neg hc, hl] at h
      obtain ⟨ha, hs⟩ := ih h
      refine ⟨fun d => ?_, fun d => ?_⟩
      · rw [ha, found_cons_absent hc hl, Finset.mem_insert]
        constructor
        · rintro ((rfl | h) | h)
          · exact .inr ⟨.inl rfl, hl⟩
          · exact .inl h
          · exact .inr ⟨.inr h.1, h.2⟩
        · rintro (h | ⟨rfl | h, hd⟩)
          · exact .inl (.inr h)
          · exact .inl (.inl rfl)
          · exact .inr ⟨h, hd⟩
      · rw [hs, found_cons_absent hc hl]
        refine or_congr_right (and_congr_left ?_)
        rintro ⟨next, hn⟩
        refine (or_iff_right ?_).symm
        rintro rfl
        rw [hl] at hn
        cases hn
  | case5 c todo seen absent hc next hl ih =>
      rw [traverse, dif_neg hc, hl] at h
      obtain ⟨ha, hs⟩ := ih h
      refine ⟨fun d => ?_, fun d => ?_⟩
      · rw [ha, found_cons_present hc hl]
        refine or_congr_right (and_congr_left fun hn => (or_iff_right ?_).symm)
        rintro rfl
        rw [hl] at hn
        cases hn
      · rw [hs, found_cons_present hc hl, Finset.mem_insert]
        constructor
        · rintro ((rfl | h) | h)
          · exact .inr ⟨.inl rfl, next, hl⟩
          · exact .inl h
          · exact .inr ⟨.inr h.1, h.2⟩
        · rintro (h | ⟨rfl | h, hd⟩)
          · exact .inl (.inr h)
          · exact .inl (.inl rfl)
          · exact .inr ⟨h, hd⟩

/-- A traversal fails only where a lookup does. -/
theorem traverse_eq_error {e : ε} : ∀ {todo : List α} {seen absent : Finset α},
    traverse look todo seen absent = .error e →
      ∃ c, Found look seen todo c ∧ look c = .error e := by
  intro todo seen absent h
  induction todo, seen, absent using traverse.induct look with
  | case1 seen absent =>
      rw [traverse] at h
      cases h
  | case2 c todo seen absent hc ih =>
      rw [traverse, dif_pos hc] at h
      simpa only [found_cons_seen hc] using ih h
  | case3 c todo seen absent hc _ hl =>
      rw [traverse, dif_neg hc, hl] at h
      cases h
      exact ⟨c, .root List.mem_cons_self hc, hl⟩
  | case4 c todo seen absent hc hl ih =>
      rw [traverse, dif_neg hc, hl] at h
      obtain ⟨d, hd, hde⟩ := ih h
      exact ⟨d, (found_cons_absent hc hl).mpr (.inr hd), hde⟩
  | case5 c todo seen absent hc next hl ih =>
      rw [traverse, dif_neg hc, hl] at h
      obtain ⟨d, hd, hde⟩ := ih h
      exact ⟨d, (found_cons_present hc hl).mpr (.inr hd), hde⟩

/-- A traversal that returns has looked up every node it found. -/
theorem traverse_looked : ∀ {todo : List α} {seen absent : Finset α} {r : Finset α × Finset α},
    traverse look todo seen absent = .ok r →
      ∀ c, Found look seen todo c → ∃ l, look c = .ok l := by
  intro todo seen absent r h
  induction todo, seen, absent using traverse.induct look with
  | case1 seen absent =>
      intro c hc
      exact absurd hc found_nil
  | case2 c todo seen absent hc ih =>
      rw [traverse, dif_pos hc] at h
      simpa only [found_cons_seen hc] using ih h
  | case3 c todo seen absent hc _ hl =>
      rw [traverse, dif_neg hc, hl] at h
      cases h
  | case4 c todo seen absent hc hl ih =>
      rw [traverse, dif_neg hc, hl] at h
      intro d hd
      rcases (found_cons_absent hc hl).mp hd with rfl | hd
      · exact ⟨_, hl⟩
      · exact ih h d hd
  | case5 c todo seen absent hc next hl ih =>
      rw [traverse, dif_neg hc, hl] at h
      intro d hd
      rcases (found_cons_present hc hl).mp hd with rfl | hd
      · exact ⟨_, hl⟩
      · exact ih h d hd

/-- A traversal returns when every node it finds can be looked up. -/
theorem traverse_total (h : ∀ c, Found look seen todo c → ∃ l, look c = .ok l) :
    ∃ r, traverse look todo seen absent = .ok r := by
  cases hr : traverse look todo seen absent with
  | ok r => exact ⟨r, rfl⟩
  | error e =>
      rcases traverse_eq_error hr with ⟨c, hc, hl⟩
      rcases h c hc with ⟨l, hl'⟩
      rw [hl] at hl'
      cases hl'

/-- **A found node is in the result.** -/
theorem traverse_covers {absent' seen' : Finset α}
    (h : traverse look todo seen absent = .ok (absent', seen')) {c : α}
    (hc : Found look seen todo c) : c ∈ seen' ∨ c ∈ absent' := by
  obtain ⟨ha, hs⟩ := traverse_eq_ok h
  rcases traverse_looked h c hc with ⟨_ | next, hl⟩
  · exact .inr ((ha c).mpr (.inr ⟨hc, hl⟩))
  · exact .inl ((hs c).mpr (.inr ⟨hc, next, hl⟩))

/-- What is absent is not seen. -/
theorem traverse_disjoint {absent' seen' : Finset α}
    (h : traverse look todo seen ∅ = .ok (absent', seen')) {c : α} (hc : c ∈ absent') :
    c ∉ seen' := by
  obtain ⟨ha, hs⟩ := traverse_eq_ok h
  obtain ⟨hf, hl⟩ := ((ha c).mp hc).resolve_left (Finset.notMem_empty c)
  intro hseen
  rcases (hs c).mp hseen with hseen | ⟨-, next, hl'⟩
  · exact hf.not_seen hseen
  · rw [hl] at hl'
    cases hl'

/-- **A traversal is settled**: started again over the nodes it returned, it
returns the same. -/
theorem traverse_settled {todo' : List α} {absent' seen' : Finset α}
    (h : traverse look todo seen ∅ = .ok (absent', seen'))
    (hsub : ∀ c ∈ todo', c ∈ seen' ∨ c ∈ absent') (habs : ∀ c ∈ absent', c ∈ todo') :
    traverse look todo' seen' ∅ = .ok (absent', seen') := by
  have hnone : ∀ c ∈ absent', look c = .ok none := fun c hc =>
    ((((traverse_eq_ok h).1 c).mp hc).resolve_left (Finset.notMem_empty c)).2
  have hfound : ∀ c, Found look seen' todo' c ↔ c ∈ absent' := by
    intro c
    constructor
    · intro hf
      induction hf with
      | root hc hs => exact (hsub _ hc).resolve_left hs
      | child _ hl _ _ ih =>
          rw [hnone _ ih] at hl
          cases hl
    · intro hc
      exact .root (habs c hc) (traverse_disjoint h hc)
  obtain ⟨⟨absent₂, seen₂⟩, h₂⟩ : ∃ r, traverse look todo' seen' ∅ = .ok r :=
    traverse_total fun c hc => ⟨none, hnone c ((hfound c).mp hc)⟩
  obtain ⟨ha, hs⟩ := traverse_eq_ok h₂
  have hseen : seen₂ = seen' := by
    ext c
    rw [hs]
    refine or_iff_left ?_
    rintro ⟨hf, next, hl⟩
    rw [hnone c ((hfound c).mp hf)] at hl
    cases hl
  have habsent : absent₂ = absent' := by
    ext c
    rw [ha, hfound]
    constructor
    · rintro (hc | ⟨hc, -⟩)
      · exact absurd hc (Finset.notMem_empty c)
      · exact hc
    · exact fun hc => .inr ⟨hc, hnone c hc⟩
  rw [h₂, hseen, habsent]

end

end Lib
