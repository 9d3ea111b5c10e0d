/-
# `FreenetGit.Dangling` — tips of bundles that are not in the index

A fetch looks the bundles of `tip_to_bundle` up in `object_index` and expects to find
them, "since `tip_to_bundle` is built from `object_index`".  It is built from the
extensions, which the owner signs one by one, and nothing in `validate_state` ties the
two maps together.  `fetch_panics_iff` says which states can make a fetch panic: those
with a tip of a bundle that is not in the index.  The subtraction at the end of a fetch
is safe for every state, since all that was downloaded was looked up there.
-/
import FreenetGit.Fetch

namespace FreenetGit

open Lib

/-! ## The whole of a fetch -/

/-- `total_in_index - downloaded.len()`; an underflow panics. -/
def skippedBundles {D : Type} (state : RepoState) (s : FetchState D) : Outcome String Nat :=
  if s.downloaded.card ≤ state.objectIndex.size then
    .ok (state.objectIndex.size - s.downloaded.card)
  else .error .panicked

section

variable {D : Type} (git : Git D) (net : Nat → ObjectBundle → Except String Bytes)
  (state : RepoState) (db : D) (wants : List (String × String))

/-- The ways `handle_fetch` ends once it has the state: in phase 1, in the loop, or with the
number of bundles it skipped.  The tips are taken in any order. -/
inductive HandleFetch : Outcome String (FetchState D × Nat) → Prop
  | legacy {e : Fault String} (h : fetchStart git net state db wants = .error e) :
      HandleFetch (.error e)
  | failed {bundleTips : List (ObjectBundleId × CommitHash)} {s : FetchState D} {e : Fault String}
      (hperm : bundleTips.Perm (collectBundleTipExtensions state).toList)
      (hstart : fetchStart git net state db wants = .ok s)
      (h : Loop.Exits (FetchPass git net state (tipToBundle bundleTips)) s (.error e)) :
      HandleFetch (.error e)
  | finished {bundleTips : List (ObjectBundleId × CommitHash)} {s s' : FetchState D}
      (hperm : bundleTips.Perm (collectBundleTipExtensions state).toList)
      (hstart : fetchStart git net state db wants = .ok s)
      (h : Loop.Exits (FetchPass git net state (tipToBundle bundleTips)) s (.ok s')) :
      HandleFetch ((skippedBundles state s').map (s', ·))

end

/-- Every bundle that has a tip is in `object_index`. -/
def TipsIndexed (state : RepoState) : Prop :=
  ∀ id tip, (collectBundleTipExtensions state)[id]? = some tip → id ∈ state.objectIndex

/-- Nothing ties the tips to the index: an accepted state is accepted without its bundles. -/
theorem Accepted.withoutIndex {cr : Crypto} {params : RepoParams} {state : RepoState}
    (h : Accepted cr params state) : Accepted cr params { state with objectIndex := ∅ } where
  prefixOk := h.prefixOk
  nameLen := h.nameLen
  descriptionLen := h.descriptionLen
  defaultBranchLen := h.defaultBranchLen
  refOk := h.refOk
  bundleOk id r hr := by
    rw [Std.ExtTreeMap.getElem?_empty] at hr
    cases hr
  extensionOk := h.extensionOk
  signed st sig hs := by
    cases hs with
    | bundle he =>
        rw [Std.ExtTreeMap.getElem?_empty] at he
        cases he
    | name he | description he | defaultBranch he | forcePushAllowed he | acl he | upgrade he
    | ref he | extension he => exact h.signed _ _ (by constructor; exact he)

/-- Git installs some pack, such as an empty one, in any repository. -/
def InstallsPack {D : Type} (git : Git D) (pack : Bytes) : Prop :=
  ∀ db, ∃ db', installPack git db pack = .ok db'

section

variable {D : Type} {git : Git D} {net : Nat → ObjectBundle → Except String Bytes}
  {state : RepoState} {tips : BTreeMap CommitHash ObjectBundleId} {s s' : FetchState D} {db : D}
  {wants : List (String × String)}

/-! ## The subtraction -/

/-- All that was downloaded is in the index. -/
def FromIndex (state : RepoState) (s : FetchState D) : Prop :=
  ∀ id ∈ s.downloaded, id ∈ state.objectIndex

theorem FromIndex.downloads {ids : List ObjectBundleId} (hs : FromIndex state s)
    (h : downloadBundles git net state ids s = .ok s') : FromIndex state s' := by
  obtain ⟨-, -, hdown, hin⟩ := downloadBundles_eq_ok h
  intro id hid
  rw [hdown] at hid
  rcases Finset.mem_union.mp hid with hid | hid
  · exact hs id hid
  · exact hin id (List.mem_toFinset.mp hid)

theorem fromIndex_start (h : fetchStart git net state db wants = .ok s) : FromIndex state s := by
  refine FromIndex.downloads (fun id hid => ?_) h
  exact absurd hid (Finset.notMem_empty id)

/-- A pass that goes on keeps it. -/
theorem FromIndex.step (hs : FromIndex state s)
    (h : Loop.Step (FetchPass git net state tips) s s') : FromIndex state s' := by
  rcases fetchPass_next h with ⟨-, order, hdl⟩ | ⟨-, order, newWants, walked, -, -, rfl⟩
  · exact hs.downloads hdl
  · exact hs

/-- So does the pass that breaks. -/
theorem FromIndex.exits (hs : FromIndex state s)
    (h : Loop.Exits (FetchPass git net state tips) s (.ok s')) : FromIndex state s' := by
  rcases h with @⟨last, _, hr, hdone⟩
  have hlast : FromIndex state last := Loop.invariant _ (fun _ _ hinv hs => hinv.step hs) hr hs
  obtain ⟨-, order, walked, -, rfl⟩ := fetchPass_done hdone
  exact hlast

theorem FromIndex.card_le (hs : FromIndex state s) :
    s.downloaded.card ≤ state.objectIndex.size := by
  have hsub : s.downloaded ⊆ state.objectIndex.keys.toFinset := fun id hid =>
    List.mem_toFinset.mpr (Std.ExtTreeMap.mem_keys.mpr (hs id hid))
  calc s.downloaded.card ≤ state.objectIndex.keys.toFinset.card := Finset.card_le_card hsub
    _ ≤ state.objectIndex.keys.length := List.toFinset_card_le _
    _ = state.objectIndex.size := Std.ExtTreeMap.length_keys

/-- **The subtraction does not underflow.** -/
theorem skippedBundles_ok (hstart : fetchStart git net state db wants = .ok s)
    (h : Loop.Exits (FetchPass git net state tips) s (.ok s')) :
    skippedBundles state s' = .ok (state.objectIndex.size - s'.downloaded.card) :=
  if_pos ((fromIndex_start hstart).exits h).card_le

/-! ## The lookups -/

/-- Phase 1 takes its bundles from the index. -/
theorem mem_of_mem_legacyIds {id : ObjectBundleId} (h : id ∈ legacyIds state) :
    id ∈ state.objectIndex ∧ id ∉ collectBundleTipExtensions state := by
  obtain ⟨hkey, hnot⟩ := List.mem_filter.mp h
  refine ⟨Std.ExtTreeMap.mem_keys.mp hkey, fun hm => ?_⟩
  rw [Std.ExtTreeMap.contains_iff_mem.mpr hm] at hnot
  cases hnot

theorem fetchStart_ne_panicked : fetchStart git net state db wants ≠ .error .panicked := by
  intro h
  obtain ⟨id, hid, hn⟩ := downloadBundles_panicked h
  exact hn (mem_of_mem_legacyIds hid).1

/-- **A fetch panics** where a pass looks up a bundle that is not in the index, and nowhere
else. -/
theorem handleFetch_panicked_iff (hgit : PrintsCommits git) :
    HandleFetch git net state db wants (.error .panicked) ↔
      ∃ (bundleTips : List (ObjectBundleId × CommitHash)) (s s' : FetchState D),
        bundleTips.Perm (collectBundleTipExtensions state).toList ∧
        fetchStart git net state db wants = .ok s ∧
        Loop.Reaches (FetchPass git net state (tipToBundle bundleTips)) s s' ∧
        ¬ Indexed state (tipToBundle bundleTips) s' := by
  constructor
  · intro h
    generalize hout : Except.error Fault.panicked = out at h
    cases h with
    | legacy h =>
        cases hout
        exact absurd h fetchStart_ne_panicked
    | @failed bundleTips s e hperm hstart h =>
        cases hout
        rcases h with _ | @⟨s', _, hr, hb⟩
        exact ⟨bundleTips, s, s', hperm, hstart, hr, not_indexed_of_panicked hgit hb⟩
    | finished hperm hstart h =>
        rw [skippedBundles_ok hstart h] at hout
        cases hout
  · rintro ⟨bundleTips, s, s', hperm, hstart, hr, hn⟩
    exact .failed hperm hstart (.error hr (panicked_of_not_indexed hn))

theorem TipsIndexed.indexed (h : TipsIndexed state)
    {bundleTips : List (ObjectBundleId × CommitHash)}
    (hperm : bundleTips.Perm (collectBundleTipExtensions state).toList) :
    Indexed state (tipToBundle bundleTips) s :=
  fun c _ id hid _ => h id c (of_tipToBundle hperm hid)

/-- Downloads succeed where the network always has a pack that git installs. -/
theorem downloadBundles_total {pack : Bytes} (hpack : InstallsPack git pack) :
    ∀ {ids : List ObjectBundleId} (s : FetchState D), (∀ id ∈ ids, id ∈ state.objectIndex) →
      ∃ s', downloadBundles git (fun _ _ => .ok pack) state ids s = .ok s'
  | [], s, _ => ⟨s, rfl⟩
  | id :: ids, s, h => by
      obtain ⟨record, hr⟩ := mem_iff_getElem?.mp (h id List.mem_cons_self)
      obtain ⟨db', hdb⟩ := hpack s.db
      obtain ⟨s', hs⟩ := downloadBundles_total hpack
        { s with db := db', downloaded := insert id s.downloaded, step := s.step + 1 }
        fun i hi => h i (List.mem_cons_of_mem _ hi)
      refine ⟨s', ?_⟩
      rw [downloadBundles, List.foldlM_cons, downloadBundle, hr]
      dsimp only
      rw [hdb]
      exact hs

/-- The tips in an order that has a given one last. -/
theorem exists_last {id : ObjectBundleId} {tip : CommitHash}
    (h : (collectBundleTipExtensions state)[id]? = some tip) :
    ∃ bundleTips : List (ObjectBundleId × CommitHash),
      bundleTips.Perm (collectBundleTipExtensions state).toList ∧
      (tipToBundle bundleTips)[tip]? = some id := by
  obtain ⟨before, after, hlist⟩ :=
    List.append_of_mem (Std.ExtTreeMap.mem_toList_iff_getElem?_eq_some.mpr h)
  refine ⟨(before ++ after) ++ (id, tip) :: [], ?_, collect_last rfl nofun⟩
  rw [hlist]
  exact (List.perm_append_singleton _ _).trans List.perm_middle.symm

/-- A fetch of a tip whose bundle is not in the index may panic. -/
theorem handleFetch_panicked {pack : Bytes} (hpack : InstallsPack git pack) {id : ObjectBundleId}
    {tip : CommitHash} (htip : (collectBundleTipExtensions state)[id]? = some tip)
    (hid : id ∉ state.objectIndex) (name : String) :
    HandleFetch git (fun _ _ => .ok pack) state db [(hexEncodeCommit tip, name)]
      (.error .panicked) := by
  obtain ⟨s, hstart⟩ : ∃ s, fetchStart git (fun _ _ => .ok pack) state db
      [(hexEncodeCommit tip, name)] = .ok s :=
    downloadBundles_total hpack _ fun i hi => (mem_of_mem_legacyIds hi).1
  obtain ⟨bundleTips, hperm, hlook⟩ := exists_last htip
  obtain ⟨hwanted, -, -, -⟩ := downloadBundles_eq_ok hstart
  refine .failed hperm hstart (.error .refl (panicked_of_not_indexed fun hindexed => ?_))
  refine hid (hindexed tip ?_ id hlook fun hdown => hid (fromIndex_start hstart id hdown))
  rw [hwanted, wantedCommits_one]
  exact Finset.mem_singleton_self tip

end

/-- **When a fetch never panics**: for any wants and any packs, in a given repository, exactly
when every bundle that has a tip is in the index.  The subtraction never underflows. -/
theorem fetch_panics_iff {D : Type} {git : Git D} {pack : Bytes} (state : RepoState) (db : D)
    (hgit : PrintsCommits git) (hpack : InstallsPack git pack) :
    ((∀ net wants, ¬ HandleFetch git net state db wants (.error .panicked)) ↔
        TipsIndexed state) ∧
      ∀ net wants bundleTips s s',
        bundleTips.Perm (collectBundleTipExtensions state).toList →
        fetchStart git net state db wants = .ok s →
        Loop.Exits (FetchPass git net state (tipToBundle bundleTips)) s (.ok s') →
        s'.downloaded.card ≤ state.objectIndex.size := by
  refine ⟨⟨fun h id tip htip => ?_, fun h net wants hp => ?_⟩,
    fun net wants bundleTips s s' _ hstart hexit => ?_⟩
  · by_contra hid
    exact h _ _ (handleFetch_panicked hpack htip hid "refs/heads/main")
  · obtain ⟨bundleTips, s, s', hperm, -, -, hn⟩ := (handleFetch_panicked_iff hgit).mp hp
    exact hn (h.indexed hperm)
  · exact ((fromIndex_start hstart).exits hexit).card_le

/-! A ref and a tip of a bundle that is not in the index. -/

namespace Sample

def dangling : RepoState := { tipped with objectIndex := ∅ }

theorem hollow_installsPack : InstallsPack hollow [] := fun db => ⟨_, installPack_refGit db []⟩

theorem dangling_tip : (collectBundleTipExtensions dangling)[tipId]? = some (sha 1) := by
  have htips : (collectBundleTipExtensions dangling).toList = tippedTips := tipped_tips
  refine Std.ExtTreeMap.mem_toList_iff_getElem?_eq_some.mp ?_
  rw [htips]
  exact List.mem_cons_self

end Sample

theorem fetch_panics_iff_dangling :
    ((∀ net wants, ¬ HandleFetch Sample.hollow net Sample.dangling ∅ wants (.error .panicked)) ↔
        TipsIndexed Sample.dangling) ∧
      ∀ net wants bundleTips s s',
        bundleTips.Perm (collectBundleTipExtensions Sample.dangling).toList →
        fetchStart Sample.hollow net Sample.dangling ∅ wants = .ok s →
        Loop.Exits (FetchPass Sample.hollow net Sample.dangling (tipToBundle bundleTips)) s
          (.ok s') →
        s'.downloaded.card ≤ Sample.dangling.objectIndex.size :=
  fetch_panics_iff Sample.dangling ∅ refGit_printsCommits Sample.hollow_installsPack

/-- The state is accepted, and the fetch of its ref panics. -/
theorem fetch_panics_dangling :
    validateState Sample.tippedCrypto Sample.params Sample.dangling = .ok () ∧
    HandleFetch Sample.hollow (fun _ _ => .ok []) Sample.dangling ∅
      [(hexEncodeCommit (Sample.sha 1), Sample.main)] (.error .panicked) := by
  refine ⟨validateState_eq_ok.mpr Sample.tipped_accepted.withoutIndex, ?_⟩
  refine handleFetch_panicked Sample.hollow_installsPack Sample.dangling_tip (fun h => ?_) _
  exact Std.ExtTreeMap.not_mem_empty h

end FreenetGit
