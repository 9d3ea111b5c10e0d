/-
# `FreenetGit.LocalPack` — packs rebuilt from a local clone

`build_local_pack_map` rebuilds packs that the network has lost.  It orders the
tips in the state by their number of ancestors, and packs each tip twice: without
what the tip before it reaches, and whole.  Every pack is kept under its hash.

What the map holds is said in terms of the pairs that were packed (`packCandidates`):
`of_buildLocalPackMap` and `exists_buildLocalPackMap`.
-/
import FreenetGit.Fetch

namespace FreenetGit

open Lib

/-- What the clone answers; names are given in hexadecimal. -/
structure CloneGit where
  /-- `git rev-list --count <sha>`, its output parsed. -/
  revListCount : String → Except String Nat
  /-- `git rev-list --objects <want> [^<have>] | git pack-objects --stdout`. -/
  revPack : Option String → String → Except String Bytes

/-- `LocalPackMap`. -/
abbrev LocalPackMap := BTreeMap PackHash Bytes

/-- A tip with the number of its ancestors. -/
structure TipWithOrder where
  bundleId : ObjectBundleId
  tip : CommitHash
  count : Nat

/-- By the number of ancestors, and then by the bytes of the tip. -/
def tipOrder : TipWithOrder → TipWithOrder → Ordering :=
  compareLex (compareOn TipWithOrder.count) (compareOn TipWithOrder.tip)

variable (cr : Crypto) (git : CloneGit) (state : RepoState)

/-- `ancestor_count`. -/
def ancestorCount (tip : CommitHash) : Except String Nat := git.revListCount (hexEncodeCommit tip)

/-- `tips_with_order`: tips that are not in the clone are left out. -/
def tipsWithOrder : List TipWithOrder :=
  (state.extensions.toList.filterMap bundleTip).filterMap fun (bundleId, tip) =>
    match ancestorCount git tip with
    | .ok n => some ⟨bundleId, tip, n⟩
    | .error _ => none

def sortedTips : List TipWithOrder :=
  (tipsWithOrder git state).mergeSort fun a b => (tipOrder a b).isLE

/-- `try_reconstruct_into`: what is there already stays. -/
def tryReconstructInto (have_ : Option CommitHash) (want : CommitHash) (map : LocalPackMap) :
    LocalPackMap :=
  match git.revPack (have_.map hexEncodeCommit) (hexEncodeCommit want) with
  | .ok packBytes => map.insertIfNew (cr.blake3 packBytes) packBytes
  | .error _ => map

/-- The loop over the tips in their order. -/
def reconstructTips : Option CommitHash → List TipWithOrder → LocalPackMap → LocalPackMap
  | _, [], map => map
  | prevTip, e :: rest, map =>
      let chained := match prevTip with
        | some prev => tryReconstructInto cr git (some prev) e.tip map
        | none => map
      reconstructTips (some e.tip) rest (tryReconstructInto cr git none e.tip chained)

/-- `build_local_pack_map`, in the git directory of the clone. -/
def buildLocalPackMap : LocalPackMap :=
  if (state.extensions.toList.filterMap bundleTip).isEmpty then ∅
  else reconstructTips cr git none (sortedTips git state) ∅

/-! ## The pairs that are packed -/

/-- The pairs of a `have` and a `want` that the loop packs. -/
def packCandidates : Option CommitHash → List CommitHash → List (Option CommitHash × CommitHash)
  | _, [] => []
  | none, t :: ts => (none, t) :: packCandidates (some t) ts
  | some p, t :: ts => (some p, t) :: (none, t) :: packCandidates (some t) ts

section

variable {cr : Crypto} {git : CloneGit} {state : RepoState} {t x : CommitHash}
  {have_ : Option CommitHash} {map : LocalPackMap} {k : PackHash} {pack : Bytes}

/-- Every tip is packed whole. -/
theorem mem_packCandidates_none : ∀ {prev : Option CommitHash} {ts : List CommitHash},
    (none, t) ∈ packCandidates prev ts ↔ t ∈ ts
  | _, [] => by simp [packCandidates]
  | none, t' :: ts => by
      rw [packCandidates, List.mem_cons, mem_packCandidates_none, List.mem_cons]
      simp
  | some p, t' :: ts => by
      rw [packCandidates, List.mem_cons, List.mem_cons, mem_packCandidates_none, List.mem_cons]
      simp

/-- A tip is packed without what another one reaches if this is the tip before it. -/
theorem mem_packCandidates_some : ∀ {prev : Option CommitHash} {ts : List CommitHash},
    (some x, t) ∈ packCandidates prev ts ↔ ∃ l₁ l₂, prev.toList ++ ts = l₁ ++ x :: t :: l₂
  | none, [] => by simp [packCandidates]
  | some p, [] => by
      refine ⟨nofun, ?_⟩
      rintro ⟨l₁, l₂, h⟩
      have hlen := congrArg List.length h
      simp at hlen
      omega
  | none, t' :: ts => by
      rw [packCandidates, List.mem_cons, mem_packCandidates_some]
      simp
  | some p, t' :: ts => by
      rw [packCandidates, List.mem_cons, List.mem_cons, mem_packCandidates_some]
      simp only [Option.toList_some, List.singleton_append]
      constructor
      · rintro (h | h | ⟨l₁, l₂, h⟩)
        · cases h
          exact ⟨[], ts, rfl⟩
        · cases h
        · exact ⟨p :: l₁, l₂, congrArg (p :: ·) h⟩
      · rintro ⟨l₁, l₂, h⟩
        cases l₁ with
        | nil =>
            cases h
            exact .inl rfl
        | cons y l₁ =>
            obtain ⟨-, h⟩ := List.cons.inj h
            exact .inr (.inr ⟨l₁, l₂, h⟩)

/-- The candidates, packed one after another. -/
def rebuild (cr : Crypto) (git : CloneGit) (cs : List (Option CommitHash × CommitHash))
    (map : LocalPackMap) : LocalPackMap :=
  cs.foldl (fun map c => tryReconstructInto cr git c.1 c.2 map) map

theorem reconstructTips_eq : ∀ (prev : Option CommitHash) (l : List TipWithOrder)
    (map : LocalPackMap),
    reconstructTips cr git prev l map = rebuild cr git (packCandidates prev (l.map (·.tip))) map
  | none, [], _ => rfl
  | some _, [], _ => rfl
  | none, e :: l, _ => reconstructTips_eq (some e.tip) l _
  | some _, e :: l, _ => reconstructTips_eq (some e.tip) l _

/-- The pairs that are packed for a state. -/
def packed (git : CloneGit) (state : RepoState) : List (Option CommitHash × CommitHash) :=
  packCandidates none ((sortedTips git state).map (·.tip))

theorem buildLocalPackMap_eq : buildLocalPackMap cr git state =
    rebuild cr git (packed git state) ∅ := by
  rw [buildLocalPackMap]
  split
  · next h =>
      rw [packed, sortedTips, tipsWithOrder, List.isEmpty_iff.mp h, List.filterMap_nil,
        List.mergeSort_nil]
      rfl
  · exact reconstructTips_eq none _ ∅

/-! ## What the map holds -/

/-- The pack of a candidate, if it has this hash. -/
def rebuilt (cr : Crypto) (git : CloneGit) (k : PackHash) (c : Option CommitHash × CommitHash) :
    Option Bytes :=
  (git.revPack (c.1.map hexEncodeCommit) (hexEncodeCommit c.2)).toOption.filter
    fun packBytes => cr.blake3 packBytes = k

theorem rebuilt_eq_some {c : Option CommitHash × CommitHash} : rebuilt cr git k c = some pack ↔
    git.revPack (c.1.map hexEncodeCommit) (hexEncodeCommit c.2) = .ok pack ∧
      cr.blake3 pack = k := by
  rw [rebuilt, Option.filter_eq_some_iff, decide_eq_true_iff]
  refine and_congr_left fun _ => ?_
  cases git.revPack (c.1.map hexEncodeCommit) (hexEncodeCommit c.2) with
  | error e => exact ⟨nofun, nofun⟩
  | ok bs => exact ⟨fun h => congrArg Except.ok (Option.some.inj h), fun h => by cases h; rfl⟩

theorem getElem?_tryReconstructInto (c : Option CommitHash × CommitHash) :
    (tryReconstructInto cr git c.1 c.2 map)[k]? = map[k]?.or (rebuilt cr git k c) := by
  rw [tryReconstructInto, rebuilt]
  cases git.revPack (c.1.map hexEncodeCommit) (hexEncodeCommit c.2) with
  | error e => exact Option.or_none.symm
  | ok bs =>
      show (map.insertIfNew (cr.blake3 bs) bs)[k]? =
        map[k]?.or ((some bs).filter fun packBytes => decide (cr.blake3 packBytes = k))
      rw [Std.ExtTreeMap.getElem?_insertIfNew, Option.filter_some]
      by_cases hk : cr.blake3 bs = k
      · subst hk
        rw [if_pos (decide_eq_true rfl)]
        cases hold : map[cr.blake3 bs]? with
        | none =>
            have hmem : cr.blake3 bs ∉ map := fun hmem => by
              obtain ⟨v, hv⟩ := mem_iff_getElem?.mp hmem
              cases hold.symm.trans hv
            rw [if_pos ⟨Std.ReflCmp.compare_self, hmem⟩]
            rfl
        | some v =>
            rw [if_neg fun h => h.2 (mem_iff_getElem?.mpr ⟨v, hold⟩)]
            rfl
      · rw [if_neg fun h => hk (Std.LawfulEqCmp.eq_of_compare h.1),
          if_neg fun h => hk (of_decide_eq_true h), Option.or_none]

/-- **The first candidate with a hash stays.** -/
theorem getElem?_rebuild : ∀ {cs : List (Option CommitHash × CommitHash)} {map : LocalPackMap},
    (rebuild cr git cs map)[k]? = map[k]?.or (cs.findSome? (rebuilt cr git k))
  | [], _ => Option.or_none.symm
  | c :: cs, map => by
      show (rebuild cr git cs (tryReconstructInto cr git c.1 c.2 map))[k]? = _
      rw [getElem?_rebuild, getElem?_tryReconstructInto, Option.or_assoc, List.findSome?_cons]
      cases rebuilt cr git k c <;> rfl

theorem getElem?_buildLocalPackMap : (buildLocalPackMap cr git state)[k]? =
    (packed git state).findSome? (rebuilt cr git k) := by
  rw [buildLocalPackMap_eq, getElem?_rebuild, Std.ExtTreeMap.getElem?_empty, Option.none_or]

/-- **The map holds packs of the clone**, each under its hash. -/
theorem of_buildLocalPackMap (h : (buildLocalPackMap cr git state)[k]? = some pack) :
    cr.blake3 pack = k ∧ ∃ c ∈ packed git state,
      git.revPack (c.1.map hexEncodeCommit) (hexEncodeCommit c.2) = .ok pack := by
  rw [getElem?_buildLocalPackMap] at h
  obtain ⟨c, hc, hpack⟩ := List.exists_of_findSome?_eq_some h
  obtain ⟨hok, hhash⟩ := rebuilt_eq_some.mp hpack
  exact ⟨hhash, c, hc, hok⟩

/-- **Every pair that can be packed has its hash in the map.** -/
theorem exists_buildLocalPackMap (hc : (have_, t) ∈ packed git state)
    (hpack : git.revPack (have_.map hexEncodeCommit) (hexEncodeCommit t) = .ok pack) :
    ∃ bs, (buildLocalPackMap cr git state)[cr.blake3 pack]? = some bs := by
  rw [getElem?_buildLocalPackMap]
  refine Option.isSome_iff_exists.mp (List.findSome?_isSome_iff.mpr ⟨_, hc, ?_⟩)
  exact Option.isSome_iff_exists.mpr ⟨pack, rebuilt_eq_some.mpr ⟨hpack, rfl⟩⟩

/-! ## The order of the tips -/

theorem tipOrder_isLE {a b : TipWithOrder} : (tipOrder a b).isLE = true ↔
    a.count < b.count ∨ (a.count = b.count ∧ (compare a.tip b.tip).isLE = true) := by
  have hthen : tipOrder a b = (compare a.count b.count).then (compare a.tip b.tip) := rfl
  rw [hthen]
  rcases Nat.lt_trichotomy a.count b.count with h | h | h
  · rw [Nat.compare_eq_lt.mpr h]
    simp [h]
  · rw [Nat.compare_eq_eq.mpr h]
    simp [h]
  · rw [Nat.compare_eq_gt.mpr h]
    simp [h.not_gt, h.ne']

instance : Std.TransCmp tipOrder :=
  inferInstanceAs (Std.TransCmp (compareLex (compareOn TipWithOrder.count)
    (compareOn TipWithOrder.tip)))

theorem sortedTips_pairwise (git : CloneGit) (state : RepoState) :
    (sortedTips git state).Pairwise fun a b => (tipOrder a b).isLE = true := by
  refine List.pairwise_mergeSort (fun a b c => Std.TransCmp.isLE_trans) (fun a b => ?_) _
  rw [Bool.or_eq_true, ← Std.OrientedCmp.isGE_iff_isLE (a := a) (b := b)]
  cases tipOrder a b <;> simp

theorem mem_sortedTips {e : TipWithOrder} : e ∈ sortedTips git state ↔
    (∃ entry ∈ state.extensions.toList, bundleTip entry = some (e.bundleId, e.tip)) ∧
      ancestorCount git e.tip = .ok e.count := by
  rw [sortedTips, List.mem_mergeSort, tipsWithOrder, List.mem_filterMap]
  constructor
  · rintro ⟨⟨id, tip⟩, hmem, h⟩
    dsimp only at h
    split at h
    · next n hn =>
        cases h
        exact ⟨List.mem_filterMap.mp hmem, hn⟩
    · cases h
  · rintro ⟨hmem, hn⟩
    refine ⟨(e.bundleId, e.tip), List.mem_filterMap.mpr hmem, ?_⟩
    dsimp only
    rw [hn]

/-- Only tips are packed, and only tips are left out. -/
theorem mem_tips_of_packed {c : Option CommitHash × CommitHash} (hc : c ∈ packed git state) :
    c.2 ∈ (sortedTips git state).map (·.tip) ∧
      ∀ x ∈ c.1, x ∈ (sortedTips git state).map (·.tip) := by
  obtain ⟨prev, t⟩ := c
  cases prev with
  | none => exact ⟨mem_packCandidates_none.mp hc, nofun⟩
  | some x =>
      obtain ⟨l₁, l₂, h⟩ := mem_packCandidates_some.mp hc
      have h : (sortedTips git state).map (·.tip) = l₁ ++ x :: t :: l₂ := h
      rw [h]
      refine ⟨by simp, fun y hy => ?_⟩
      cases Option.mem_some_iff.mp hy
      simp

end

/-! ### Neighbours in an ordered list -/

section

variable {α : Type} {R : α → α → Prop} {L l₁ l₂ : List α} {a b x q : α}

/-- What is not last has something before its first occurrence. -/
theorem exists_before (hL : L.Pairwise R) (hb : b ∈ L) (ha : a ∈ L) (hne : a ≠ b)
    (hba : ¬ R b a) :
    ∃ x l₁ l₂, L = l₁ ++ x :: b :: l₂ ∧ x ≠ b ∧ R x b ∧ (a = x ∨ R a x) := by
  obtain ⟨l, l₂, rfl, hfirst⟩ := List.eq_append_cons_of_mem hb
  obtain ⟨hl, hrest, hbefore⟩ := List.pairwise_append.mp hL
  have hal : a ∈ l := by
    rcases List.mem_append.mp ha with h | h
    · exact h
    · rcases List.mem_cons.mp h with h | h
      · exact absurd h hne
      · exact absurd ((List.pairwise_cons.mp hrest).1 a h) hba
  rcases List.eq_nil_or_concat' l with rfl | ⟨l₁, x, rfl⟩
  · exact absurd hal List.not_mem_nil
  have hx : x ∈ l₁ ++ [x] := List.mem_append_right _ (List.mem_singleton_self x)
  refine ⟨x, l₁, l₂, by simp, fun h => hfirst (h ▸ hx), hbefore x hx b List.mem_cons_self, ?_⟩
  rcases List.mem_append.mp hal with h | h
  · exact .inr ((List.pairwise_append.mp hl).2.2 a h x (List.mem_singleton_self x))
  · exact .inl (List.mem_singleton.mp h)

/-- Nothing stands between two neighbours. -/
theorem outside_of_neighbours (hL : (l₁ ++ x :: b :: l₂).Pairwise R)
    (hq : q ∈ l₁ ++ x :: b :: l₂) : (q = x ∨ R q x) ∨ q = b ∨ R b q := by
  obtain ⟨-, hrest, hbefore⟩ := List.pairwise_append.mp hL
  obtain ⟨-, hafter⟩ := List.pairwise_cons.mp hrest
  rcases List.mem_append.mp hq with h | h
  · exact .inl (.inr (hbefore q h x List.mem_cons_self))
  · rcases List.mem_cons.mp h with h | h
    · exact .inl (.inl h)
    · rcases List.mem_cons.mp h with h | h
      · exact .inr (.inl h)
      · exact .inr (.inr ((List.pairwise_cons.mp hafter).1 q h))

end

end FreenetGit
