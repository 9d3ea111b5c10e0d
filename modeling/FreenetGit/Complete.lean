/-
# `FreenetGit.Complete` — the history after a normal exit

When the loop of `handle_fetch` breaks, every commit in the history of the
commits asked for is local (`fetch_break_complete`), provided that no walk comes
to a local annotated tag of a commit that is missing: such a tag is taken for an
object that leads nowhere, is `walked` from then on, and the history behind it is
never looked at again.  The invariant is that every walked commit peels locally
and its parents are walked or wanted (`HistoryInv`).
-/
import FreenetGit.Fetch

namespace FreenetGit

open Lib

section

variable {D : Type}

/-- What a walk comes to from the commits `wanted` when the objects `L` are local: these, and
the parents of the commits they peel to. -/
inductive Met (g : ObjectGraph) (L wanted : Set CommitHash) : CommitHash → Prop
  | want {c : CommitHash} (h : c ∈ wanted) : Met g L wanted c
  | parent {c p : CommitHash} {co : CommitObject} (h : Met g L wanted c) (hc : PeelsIn g L c co)
      (hp : p ∈ co.parents) : Met g L wanted p

/-- Every local tag that a walk comes to peels locally, if it is one of a commit. -/
def TagsWhole (g : ObjectGraph) (L wanted : Set CommitHash) : Prop :=
  ∀ c, Met g L wanted c → c ∈ L → ∀ co, PeelsIn g Set.univ c co → PeelsIn g L c co

/-- What the loop keeps, for the commits `seeds` it was started with. -/
structure HistoryInv (g : ObjectGraph) (local_ : D → Set CommitHash) (seeds : Finset CommitHash)
    (s : FetchState D) : Prop where
  seeds_wanted : seeds ⊆ s.wanted
  walked_local : ∀ c ∈ s.walked, c ∈ local_ s.db
  peels : ∀ c ∈ s.walked, ∀ co, PeelsIn g Set.univ c co → PeelsIn g (local_ s.db) c co
  parents : ∀ c ∈ s.walked, ∀ co, PeelsIn g Set.univ c co →
    ∀ p ∈ co.parents, p ∈ s.walked ∨ p ∈ s.wanted

variable {git : Git D} {net : Nat → ObjectBundle → Except String Bytes} {state : RepoState}
  {tips : BTreeMap CommitHash ObjectBundleId} {g : ObjectGraph} {local_ : D → Set CommitHash}
  {seeds : Finset CommitHash} {s s' : FetchState D}

/-- Downloads keep the local objects. -/
theorem downloadBundles_local (hg : GitSpec git g local_) {ids : List ObjectBundleId}
    (h : downloadBundles git net state ids s = .ok s') : local_ s.db ⊆ local_ s'.db := by
  refine downloadBundles_induction (fun t => local_ s.db ⊆ local_ t.db) ?_ (Set.Subset.refl _) h
  intro t t' id ht hd
  obtain ⟨_, pack, -, -, rfl⟩ := downloadBundle_eq_ok hd
  exact ht.trans (hg.indexPack t.db pack)

/-- A walk visits what it comes to. -/
theorem GitSpec.visited_met (hg : GitSpec git g local_) {db : D} {wanted walked : Finset CommitHash}
    {c : CommitHash} (h : Visited git db wanted walked c) : Met g (local_ db) wanted c := by
  induction h with
  | root h _ => exact .want (Finset.mem_toList.mp h)
  | @child c d next _ hl hd _ ih =>
      rcases hg.lookUp_cases db c with ⟨-, hl'⟩ | ⟨co, hp, hl'⟩ | ⟨-, -, hl'⟩
      · rw [hl'] at hl
        cases hl
      · rw [hl'] at hl
        cases hl
        exact ih.parent hp hd
      · rw [hl'] at hl
        cases hl
        cases hd

theorem GitSpec.local_of_lookUp (hg : GitSpec git g local_) {db : D} {c : CommitHash}
    {next : List CommitHash} (h : lookUp git db c = .ok (some next)) : c ∈ local_ db := by
  by_contra hn
  rw [hg.lookUp_missing hn] at h
  cases h

/-- **A walk keeps the invariant**, with the missing commits wanted as well. -/
theorem HistoryInv.walk (hg : GitSpec git g local_) (hinv : HistoryInv g local_ seeds s)
    (htags : TagsWhole g (local_ s.db) s.wanted) {order : HashOrder CommitHash}
    {newWants walked : Finset CommitHash}
    (h : walkUnresolvedParents git s.db order s.wanted s.walked = .ok (newWants, walked)) :
    HistoryInv g local_ seeds { s with walked := walked, wanted := s.wanted ∪ newWants } := by
  obtain ⟨-, hwalked⟩ := walk_eq_ok h
  obtain ⟨-, hclosed⟩ := walk_covers h
  -- what is newly walked was met, so it peels locally
  have hfresh : ∀ c ∈ walked, c ∉ s.walked → c ∈ local_ s.db ∧
      ∀ co, PeelsIn g Set.univ c co → PeelsIn g (local_ s.db) c co := by
    intro c hc hold
    obtain ⟨hv, next, hl⟩ := ((hwalked c).mp hc).resolve_left hold
    have hlocal := hg.local_of_lookUp hl
    exact ⟨hlocal, htags c (hg.visited_met hv) hlocal⟩
  refine ⟨?_, ?_, ?_, ?_⟩
  · exact hinv.seeds_wanted.trans Finset.subset_union_left
  · intro c hc
    by_cases hold : c ∈ s.walked
    · exact hinv.walked_local c hold
    · exact (hfresh c hc hold).1
  · intro c hc
    by_cases hold : c ∈ s.walked
    · exact hinv.peels c hold
    · exact (hfresh c hc hold).2
  · intro c hc co hp p hpar
    by_cases hold : c ∈ s.walked
    · rcases hinv.parents c hold co hp p hpar with hw | hw
      · exact .inl ((hwalked p).mpr (.inl hw))
      · exact .inr (Finset.mem_union_left _ hw)
    · have hlook := hg.lookUp_commit ((hfresh c hc hold).2 co hp)
      rcases hclosed c hc hold _ hlook p hpar with h | h
      · exact .inl h
      · exact .inr (Finset.mem_union_right _ h)

/-- **A pass keeps the invariant.** -/
theorem HistoryInv.step (hg : GitSpec git g local_) (hinv : HistoryInv g local_ seeds s)
    (htags : Drained tips s → TagsWhole g (local_ s.db) s.wanted)
    (h : Loop.Step (FetchPass git net state tips) s s') : HistoryInv g local_ seeds s' := by
  rcases fetchPass_next h with ⟨-, order, hdl⟩ | ⟨hd, order, newWants, walked, hw, -, rfl⟩
  · obtain ⟨hwanted, hwalked, -, -⟩ := downloadBundles_eq_ok hdl
    have hlocal := downloadBundles_local hg hdl
    refine ⟨?_, ?_, ?_, ?_⟩
    · rw [hwanted]
      exact hinv.seeds_wanted
    · rw [hwalked]
      exact fun c hc => hlocal (hinv.walked_local c hc)
    · rw [hwalked]
      exact fun c hc co hp => (hinv.peels c hc co hp).mono hlocal
    · rw [hwanted, hwalked]
      exact hinv.parents
  · exact hinv.walk hg (htags hd) hw

theorem historyInv_start {db : D} {wants : List (String × String)}
    (h : fetchStart git net state db wants = .ok s) :
    HistoryInv g local_ (wantedCommits state wants) s := by
  obtain ⟨hwanted, hwalked, -, -⟩ := downloadBundles_eq_ok h
  refine ⟨hwanted ▸ Finset.Subset.refl _, ?_, ?_, ?_⟩
  all_goals
    rw [hwalked]
    exact fun c hc => absurd hc (Finset.notMem_empty c)

/-- Where everything wanted is walked, the histories are local. -/
theorem HistoryInv.complete (hinv : HistoryInv g local_ seeds s)
    (hall : ∀ c ∈ s.wanted, c ∈ s.walked) {w : CommitHash} (hw : w ∈ seeds) :
    w ∈ local_ s.db ∧
      ∀ c co, History g w c → PeelsIn g Set.univ c co → c ∈ local_ s.db := by
  have hwalked : ∀ c ∈ s.walked, ∀ co, PeelsIn g Set.univ c co → ∀ p ∈ co.parents, p ∈ s.walked :=
    fun c hc co hp p hpar => (hinv.parents c hc co hp p hpar).elim id (hall p)
  have hseed : w ∈ s.walked := hall w (hinv.seeds_wanted hw)
  refine ⟨hinv.walked_local w hseed, fun c co hc hp => ?_⟩
  -- along the history: what peels does so locally, and the parents behind it are walked
  have hpath : ∀ co, PeelsIn g Set.univ c co →
      PeelsIn g (local_ s.db) c co ∧ ∀ p ∈ co.parents, p ∈ s.walked := by
    clear hp co
    induction hc with
    | refl => exact fun co hp => ⟨hinv.peels w hseed co hp, hwalked w hseed co hp⟩
    | @tail a b _ hab ih =>
        cases hga : g a with
        | commit ca =>
            rw [hga] at hab
            have hb := (ih ca (.commit (Set.mem_univ a) hga)).2 b hab
            exact fun co hp => ⟨hinv.peels b hb co hp, hwalked b hb co hp⟩
        | tag t =>
            rw [hga] at hab
            cases List.mem_singleton.mp hab
            intro co hp
            obtain ⟨hlocal, hpar⟩ := ih co (.tag (Set.mem_univ a) hga hp)
            exact ⟨hlocal.of_tag hga, hpar⟩
        | tree _ | blob =>
            rw [hga] at hab
            cases hab
  exact (hpath co hp).1.mem

/-- **A normal exit means a complete history**: when the loop breaks, the
commits asked for and all the commits in their histories are local. -/
theorem fetch_break_complete {db : D} {wants : List (String × String)}
    (hg : GitSpec git g local_) (hstart : fetchStart git net state db wants = .ok s)
    (hexit : Loop.Exits (FetchPass git net state tips) s (.ok s'))
    (htags : ∀ t, Loop.Reaches (FetchPass git net state tips) s t → Drained tips t →
      TagsWhole g (local_ t.db) t.wanted) :
    ∀ w ∈ wantedCommits state wants, w ∈ local_ s'.db ∧
      ∀ c co, History g w c → PeelsIn g Set.univ c co → c ∈ local_ s'.db := by
  rcases hexit with @⟨last, _, hr, hdone⟩
  have hinv : HistoryInv g local_ (wantedCommits state wants) last ∧
      Loop.Reaches (FetchPass git net state tips) s last := by
    refine Loop.invariant (fun t => HistoryInv g local_ (wantedCommits state wants) t ∧
      Loop.Reaches (FetchPass git net state tips) s t) ?_ hr ⟨historyInv_start hstart, .refl⟩
    rintro t t' ⟨hinv, hrt⟩ hs
    exact ⟨hinv.step hg (htags t hrt) hs, hrt.tail hs⟩
  obtain ⟨hd, order, walked, hw, rfl⟩ := fetchPass_done hdone
  have hwalk := hinv.1.walk hg (htags last hr hd) hw
  rw [Finset.union_empty] at hwalk
  have hall : ∀ c ∈ last.wanted, c ∈ walked := fun c hc =>
    ((walk_covers hw).1 c hc).resolve_right (Finset.notMem_empty c)
  exact fun w hseed => hwalk.complete hall hseed

end

/-! An annotated tag is local and its target, a commit, is not. -/

namespace Sample

/-- A commit without parents. -/
def rootCommit : CommitObject := ⟨zeros 20, [], [], []⟩

/-- The object 1 is a tag of the commit 2. -/
def tagGraph : ObjectGraph := fun c =>
  if c = sha 1 then .tag (sha 2) else if c = sha 2 then .commit rootCommit else .blob

/-- Every pack holds the objects `packed`. -/
noncomputable def tagGit (packed : Set CommitHash) : Git (Set CommitHash) :=
  refGit tagGraph fun _ => packed

/-- The variables before the loop, in a repository with the tag, and after the download of the
commit. -/
def having : FetchState (Set CommitHash) := ⟨{sha 1}, {sha 1}, ∅, ∅, 1⟩

def completed : FetchState (Set CommitHash) :=
  ⟨{sha 1} ∪ {sha 2}, {sha 1}, ∅, insert tipId ∅, 2⟩

theorem having_start {packed : Set CommitHash} {state : RepoState} (hlegacy : legacyIds state = []) :
    fetchStart (tagGit packed) (fun _ _ => .ok []) state {sha 1}
      [(hexEncodeCommit (sha 1), main)] = .ok having := by
  rw [fetchStart, hlegacy, wantedCommits_one]
  rfl

theorem sha_ne : sha 2 ≠ sha 1 := by decide

theorem tagGraph_one : tagGraph (sha 1) = .tag (sha 2) := if_pos rfl

theorem tagGraph_two : tagGraph (sha 2) = .commit rootCommit := by
  rw [tagGraph, if_neg sha_ne, if_pos rfl]

/-- Without the commit the tag peels to nothing. -/
theorem having_tag : lookUp (tagGit ∅) {sha 1} (sha 1) = .ok (some []) := by
  refine refGit_spec.lookUp_other (Set.mem_singleton _) fun co h => ?_
  exact sha_ne (Set.mem_singleton_iff.mp (h.of_tag tagGraph_one).mem)

theorem completed_peels : PeelsIn tagGraph completed.db (sha 1) rootCommit :=
  .tag (.inl rfl) tagGraph_one (.commit (.inr rfl) tagGraph_two)

theorem completed_drained : Drained (tipToBundle tippedTips) completed :=
  fun _ _ _ hid => tippedTips_range hid ▸ Finset.mem_insert_self _ _

/-- The walk comes to the tag alone. -/
theorem completed_whole : TagsWhole tagGraph completed.db completed.wanted := by
  have hone : ∀ c, Met tagGraph completed.db completed.wanted c → c = sha 1 := by
    intro c hc
    induction hc with
    | want h => exact Finset.mem_singleton.mp h
    | parent _ hx hp ih =>
        rw [ih] at hx
        rw [hx.unique completed_peels] at hp
        cases hp
  intro c hc _ co hco
  cases hone c hc
  exact hco.unique completed_peels ▸ completed_peels

theorem completed_pass (order : HashOrder CommitHash) :
    fetchPass (tagGit {sha 2}) (fun _ _ => .ok []) tipped (tipToBundle tippedTips) order completed =
      .ok (.done { completed with walked := insert (sha 1) ∅ }) :=
  leaf_pass completed_drained rfl rfl (refGit_spec.lookUp_commit completed_peels) order

theorem having_pass (order : HashOrder CommitHash) :
    fetchPass (tagGit {sha 2}) (fun _ _ => .ok []) tipped (tipToBundle tippedTips) order having =
      .ok (.next completed) := by
  have hrecord : tipped.objectIndex[tipId]? = some ⟨pack, owner, 0, sig 2⟩ := by decide +kernel
  exact first_pass tippedTips_lookup hrecord rfl rfl order

theorem having_reaches {t : FetchState (Set CommitHash)}
    (h : Loop.Reaches (FetchPass (tagGit {sha 2}) (fun _ _ => .ok []) tipped
      (tipToBundle tippedTips)) having t) : t = having ∨ t = completed := by
  induction h with
  | refl => exact .inl rfl
  | tail _ hs ih =>
      obtain ⟨order, hs⟩ := hs
      rcases ih with rfl | rfl
      · rw [having_pass] at hs
        cases hs
        exact .inr rfl
      · rw [completed_pass] at hs
        cases hs

end Sample

/-- The tag's commit arrives in the first pass, and the second one breaks. -/
theorem fetch_break_complete_tag :
    Sample.sha 1 ∈ id Sample.completed.db ∧
      ∀ c co, History Sample.tagGraph (Sample.sha 1) c → PeelsIn Sample.tagGraph Set.univ c co →
        c ∈ id Sample.completed.db := by
  have hlegacy : legacyIds Sample.tipped = [] := by decide +kernel
  obtain ⟨order⟩ := exists_hashOrder
  have hexit : Loop.Exits (FetchPass (Sample.tagGit {Sample.sha 2}) (fun _ _ => .ok []) Sample.tipped
      (tipToBundle Sample.tippedTips)) Sample.having
      (.ok { Sample.completed with walked := insert (Sample.sha 1) ∅ }) :=
    .done (.single ⟨order, Sample.having_pass order⟩) ⟨order, Sample.completed_pass order⟩
  refine fetch_break_complete refGit_spec (Sample.having_start hlegacy) hexit
    (fun t ht hd => ?_) (Sample.sha 1) ?_
  · rcases Sample.having_reaches ht with rfl | rfl
    · exact absurd (hd _ (Finset.mem_singleton_self _) _ Sample.tippedTips_lookup)
        (Finset.notMem_empty _)
    · exact Sample.completed_whole
  · rw [wantedCommits_one]
    exact Finset.mem_singleton_self _

/-- The loop breaks with the tag walked, and the commit it points to is missing. -/
theorem fetch_break_incomplete :
    fetchStart (Sample.tagGit ∅) (fun _ _ => .ok []) RepoState.default {Sample.sha 1}
      [(hexEncodeCommit (Sample.sha 1), Sample.main)] = .ok Sample.having ∧
    Loop.Exits (FetchPass (Sample.tagGit ∅) (fun _ _ => .ok []) RepoState.default (tipToBundle []))
      Sample.having (.ok { Sample.having with walked := insert (Sample.sha 1) ∅ }) ∧
    ¬ ∀ w ∈ wantedCommits RepoState.default [(hexEncodeCommit (Sample.sha 1), Sample.main)],
      w ∈ ({ Sample.having with walked := insert (Sample.sha 1) ∅ }).db ∧
      ∀ c co, History Sample.tagGraph w c → PeelsIn Sample.tagGraph Set.univ c co →
        c ∈ ({ Sample.having with walked := insert (Sample.sha 1) ∅ }).db := by
  obtain ⟨order⟩ := exists_hashOrder
  have hdrained : Drained (tipToBundle []) Sample.having := fun c _ id hid => by
    rcases of_collect hid with ⟨_, h, -⟩
    cases h
  refine ⟨Sample.having_start (by decide),
    .done .refl ⟨order, leaf_pass hdrained rfl rfl Sample.having_tag order⟩, fun h => ?_⟩
  have hwanted : Sample.sha 1 ∈
      wantedCommits RepoState.default [(hexEncodeCommit (Sample.sha 1), Sample.main)] := by
    decide
  have hpeel : History Sample.tagGraph (Sample.sha 1) (Sample.sha 2) :=
    .single (by rw [Sample.tagGraph_one]; exact List.mem_singleton_self _)
  have hcommit : PeelsIn Sample.tagGraph Set.univ (Sample.sha 2) Sample.rootCommit :=
    .commit (Set.mem_univ _) Sample.tagGraph_two
  have hmem := (h _ hwanted).2 _ _ hpeel hcommit
  exact Sample.sha_ne (Set.mem_singleton_iff.mp hmem)

end FreenetGit
