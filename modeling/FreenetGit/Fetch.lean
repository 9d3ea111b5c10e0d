/-
# `FreenetGit.Fetch` — downloading the bundles that a fetch needs

`handle_fetch` first downloads the bundles without a tip extension, then loops:
it downloads the bundles whose tips are wanted, and when none is left walks the
local history of the wanted commits and wants the commits it found missing.  The
network (`net`, one answer for each download in turn), the iteration order of
the hash maps and the objects inside the packs are arbitrary.

`fetch_ends_iff` says when the loop ends: it does unless a pass looks up a bundle
that is not in `object_index`, or the only missing commits that a bundle
advertises are advertised by bundles it has downloaded already.
-/
import FreenetGit.Lib.Loop
import FreenetGit.Convergence
import FreenetGit.Push
import FreenetGit.Walk

namespace FreenetGit

open Lib

/-- The variables of the loop. -/
structure FetchState (D : Type) where
  db : D
  wanted : Finset CommitHash
  walked : Finset CommitHash
  downloaded : Finset ObjectBundleId
  step : Nat

/-! ## Tips -/

/-- An extension that advertises the tip of a bundle. -/
def bundleTip (e : String × ExtensionEntry) : Option (ObjectBundleId × CommitHash) :=
  match parseBundleTipExtensionKey e.1 with
  | none => none
  | some bundleId => (toArray? 20 e.2.value).map (bundleId, ·)

/-- `collect_bundle_tip_extensions`. -/
def collectBundleTipExtensions (state : RepoState) : BTreeMap ObjectBundleId CommitHash :=
  collect bundleTip state.extensions.toList

/-- `tip_to_bundle`, from the tips in the order of their hash map: of the bundles
with one tip the last one stays. -/
def tipToBundle (bundleTips : List (ObjectBundleId × CommitHash)) :
    BTreeMap CommitHash ObjectBundleId :=
  collect (fun e => some (e.2, e.1)) bundleTips

/-- The bundle of a tip is the last one in the order of the tips. -/
theorem tipToBundle_getElem? (bundleTips : List (ObjectBundleId × CommitHash)) (c : CommitHash) :
    (tipToBundle bundleTips)[c]? = (bundleTips.filter (·.2 = c)).getLast?.map (·.1) := by
  induction bundleTips using List.reverseRecOn with
  | nil => exact Std.ExtTreeMap.getElem?_empty
  | append_singleton l e ih =>
      have hconcat : tipToBundle (l ++ [e]) = (tipToBundle l).insert e.2 e.1 := collect_concat _ l e
      rw [hconcat, getElem?_insert_eq, List.filter_append, List.filter_singleton]
      by_cases he : e.2 = c
      · rw [if_pos he, decide_eq_true he, cond_true, List.getLast?_concat]
        rfl
      · rw [if_neg he, decide_eq_false he, cond_false, List.append_nil]
        exact ih

/-- The bundles without a tip. -/
def legacyIds (state : RepoState) : List ObjectBundleId :=
  state.objectIndex.keys.filter fun id => !(collectBundleTipExtensions state).contains id

/-- The commits asked for, or the targets of all refs. -/
def wantedCommits (state : RepoState) (wants : List (String × String)) : Finset CommitHash :=
  let asked := (wants.filterMap fun w => (parseSha1 w.1).toOption).toFinset
  if asked = ∅ then (state.refs.values.map (·.target)).toFinset else asked

/-- One want is one wanted commit. -/
theorem wantedCommits_one (state : RepoState) (c : CommitHash) (n : String) :
    wantedCommits state [(hexEncodeCommit c, n)] = {c} := by
  have hasked : ([(hexEncodeCommit c, n)].filterMap fun w => (parseSha1 w.1).toOption).toFinset =
      {c} := by
    rw [List.filterMap_cons_some (by rw [hexEncodeCommit, parseSha1_hexEncode]; rfl)]
    rfl
  unfold wantedCommits
  rw [hasked]
  exact if_neg (Finset.singleton_ne_empty c)

section

variable {state : RepoState} {bundleTips : List (ObjectBundleId × CommitHash)}
  {id : ObjectBundleId} {c : CommitHash}

theorem mem_bundleTips (hperm : bundleTips.Perm (collectBundleTipExtensions state).toList) :
    (id, c) ∈ bundleTips ↔ (collectBundleTipExtensions state)[id]? = some c := by
  rw [hperm.mem_iff]
  exact Std.ExtTreeMap.mem_toList_iff_getElem?_eq_some

theorem of_tipToBundle (hperm : bundleTips.Perm (collectBundleTipExtensions state).toList)
    (h : (tipToBundle bundleTips)[c]? = some id) :
    (collectBundleTipExtensions state)[id]? = some c := by
  obtain ⟨e, he, heq⟩ := of_collect h
  cases heq
  exact (mem_bundleTips hperm).mp he

end

/-! ## The loop -/

section

variable {D : Type} (git : Git D) (net : Nat → ObjectBundle → Except String Bytes)
  (state : RepoState)

/-- Download and install one bundle; the record is expected to be there. -/
def downloadBundle (s : FetchState D) (id : ObjectBundleId) : Outcome String (FetchState D) :=
  match state.objectIndex[id]? with
  | none => .error .panicked
  | some record =>
      match net s.step record.bundle with
      | .error e => .error (.err e)
      | .ok packBytes => do
          let db ← installPack git s.db packBytes
          .ok { s with db := db, downloaded := insert id s.downloaded, step := s.step + 1 }

/-- One bundle after another. -/
def downloadBundles (ids : List ObjectBundleId) (s : FetchState D) :
    Outcome String (FetchState D) :=
  ids.foldlM (downloadBundle git net state) s

/-- Phase 1. -/
def fetchStart (db : D) (wants : List (String × String)) : Outcome String (FetchState D) :=
  downloadBundles git net state (legacyIds state) ⟨db, wantedCommits state wants, ∅, ∅, 1⟩

def couldNotConverge (newWants : List CommitHash) : String :=
  "fetch could not converge: " ++ toString newWants.length ++ " commit(s) needed but no bundle " ++
  "in object_index advertises them. First missing: " ++
  String.intercalate ", " ((newWants.take 3).map hexEncodeCommit) ++ ". The contract state may " ++
  "be inconsistent (missing bundles) or pre-0.1.16 bundles whose objects don't include the " ++
  "wanted history."

variable (tips : BTreeMap CommitHash ObjectBundleId)

/-- The bundles to download next. -/
def toDownload (order : HashOrder CommitHash) (s : FetchState D) : List ObjectBundleId :=
  ((order.enum s.wanted).filterMap (tips[·]?)).filter (· ∉ s.downloaded)

/-- One pass of phase 2. -/
def fetchPass (order : HashOrder CommitHash) (s : FetchState D) :
    Outcome String (Control (FetchState D)) :=
  if toDownload tips order s = [] then do
    let (newWants, walked) ← walkUnresolvedParents git s.db order s.wanted s.walked
    if newWants = ∅ then .ok (.done { s with walked := walked })
    else if (order.enum newWants).any (tips.contains ·) then
      .ok (.next { s with walked := walked, wanted := s.wanted ∪ newWants })
    else .error (.err (couldNotConverge (order.enum newWants)))
  else do
    let s' ← downloadBundles git net state (toDownload tips order s) s
    .ok (.next s')

/-- One pass, in any order. -/
def FetchPass (s : FetchState D) (out : Outcome String (Control (FetchState D))) : Prop :=
  ∃ order, fetchPass git net state tips order s = out

end

/-! ## What a download does -/

section

variable {D : Type} {git : Git D} {net : Nat → ObjectBundle → Except String Bytes}
  {state : RepoState} {tips : BTreeMap CommitHash ObjectBundleId}

/-- A download that succeeds installs the pack of a bundle in `object_index`. -/
theorem downloadBundle_eq_ok {s s' : FetchState D} {id : ObjectBundleId}
    (h : downloadBundle git net state s id = .ok s') :
    ∃ record packBytes, state.objectIndex[id]? = some record ∧
      net s.step record.bundle = .ok packBytes ∧
      s' = { s with db := (git.indexPack s.db packBytes).2, downloaded := insert id s.downloaded,
                    step := s.step + 1 } := by
  rw [downloadBundle] at h
  split at h
  · cases h
  · next record hr =>
      split at h
      · cases h
      · next packBytes hp =>
          obtain ⟨db, hdb, h⟩ := bind_eq_ok.mp h
          cases h
          exact ⟨record, packBytes, hr, hp, by rw [installPack_eq_ok hdb]⟩

/-- What every download keeps is kept by all of them. -/
theorem downloadBundles_induction (Inv : FetchState D → Prop)
    (hstep : ∀ s s' id, Inv s → downloadBundle git net state s id = .ok s' → Inv s') :
    ∀ {ids : List ObjectBundleId} {s s' : FetchState D}, Inv s →
      downloadBundles git net state ids s = .ok s' → Inv s'
  | [], s, s', hinv, h => by
      cases h
      exact hinv
  | id :: ids, s, s', hinv, h => by
      rw [downloadBundles, List.foldlM_cons] at h
      obtain ⟨s₁, h₁, h⟩ := bind_eq_ok.mp h
      exact downloadBundles_induction Inv hstep (hstep s s₁ id hinv h₁) h

/-- Downloads only change the database and the set of downloaded bundles. -/
theorem downloadBundles_eq_ok : ∀ {ids : List ObjectBundleId} {s s' : FetchState D},
    downloadBundles git net state ids s = .ok s' →
      s'.wanted = s.wanted ∧ s'.walked = s.walked ∧
      s'.downloaded = s.downloaded ∪ ids.toFinset ∧ ∀ id ∈ ids, id ∈ state.objectIndex
  | [], s, s', h => by
      cases h
      exact ⟨rfl, rfl, by simp, nofun⟩
  | id :: ids, s, s', h => by
      rw [downloadBundles, List.foldlM_cons] at h
      obtain ⟨s₁, h₁, h⟩ := bind_eq_ok.mp h
      obtain ⟨record, _, hr, -, rfl⟩ := downloadBundle_eq_ok h₁
      obtain ⟨hw, hk, hd, hin⟩ := downloadBundles_eq_ok h
      refine ⟨hw, hk, ?_, fun i hi => ?_⟩
      · rw [hd, List.toFinset_cons]
        ext i
        simp only [Finset.mem_union, Finset.mem_insert]
        tauto
      · rcases List.mem_cons.mp hi with rfl | hi
        · exact mem_iff_getElem?.mpr ⟨record, hr⟩
        · exact hin i hi

/-- Downloads panic only at a bundle that is not in `object_index`. -/
theorem downloadBundles_panicked : ∀ {ids : List ObjectBundleId} {s : FetchState D},
    downloadBundles git net state ids s = .error .panicked → ∃ id ∈ ids, id ∉ state.objectIndex
  | [], s, h => nomatch h
  | id :: ids, s, h => by
      rw [downloadBundles, List.foldlM_cons] at h
      rcases bind_eq_error.mp h with h | ⟨s₁, -, h⟩
      · refine ⟨id, List.mem_cons_self, fun hm => ?_⟩
        rcases mem_iff_getElem?.mp hm with ⟨record, hr⟩
        rw [downloadBundle, hr] at h
        dsimp only at h
        split at h
        · cases h
        · rcases bind_eq_error.mp h with h | ⟨_, -, h⟩
          · rw [installPack] at h
            split at h
            · cases h
            · split at h <;> cases h
          · cases h
      · rcases downloadBundles_panicked h with ⟨i, hi, hn⟩
        exact ⟨i, List.mem_cons_of_mem _ hi, hn⟩

theorem mem_toDownload {order : HashOrder CommitHash} {s : FetchState D} {id : ObjectBundleId} :
    id ∈ toDownload tips order s ↔ (∃ c ∈ s.wanted, tips[c]? = some id) ∧ id ∉ s.downloaded := by
  simp only [toDownload, List.mem_filter, List.mem_filterMap, order.mem_enum, decide_eq_true_eq]

/-- Nothing is left to download for the wanted commits. -/
def Drained (tips : BTreeMap CommitHash ObjectBundleId) (s : FetchState D) : Prop :=
  ∀ c ∈ s.wanted, ∀ id, tips[c]? = some id → id ∈ s.downloaded

theorem toDownload_eq_nil {order : HashOrder CommitHash} {s : FetchState D} :
    toDownload tips order s = [] ↔ Drained tips s := by
  rw [List.eq_nil_iff_forall_not_mem]
  constructor
  · intro h c hc id hid
    by_contra hd
    exact h id (mem_toDownload.mpr ⟨⟨c, hc, hid⟩, hd⟩)
  · intro h id hid
    obtain ⟨⟨c, hc, hid⟩, hd⟩ := mem_toDownload.mp hid
    exact hd (h c hc id hid)

end

/-! ## What a pass does -/

section

variable {D : Type} {git : Git D} {net : Nat → ObjectBundle → Except String Bytes}
  {state : RepoState} {tips : BTreeMap CommitHash ObjectBundleId} {s s' : FetchState D}

theorem fetchPass_drained {order : HashOrder CommitHash} (h : Drained tips s) :
    fetchPass git net state tips order s =
      (walkUnresolvedParents git s.db order s.wanted s.walked >>= fun r =>
        if r.1 = ∅ then .ok (.done { s with walked := r.2 })
        else if (order.enum r.1).any (tips.contains ·) then
          .ok (.next { s with walked := r.2, wanted := s.wanted ∪ r.1 })
        else .error (.err (couldNotConverge (order.enum r.1)))) := by
  rw [fetchPass, if_pos (toDownload_eq_nil.mpr h)]

theorem fetchPass_not_drained {order : HashOrder CommitHash} (h : ¬ Drained tips s) :
    fetchPass git net state tips order s =
      (downloadBundles git net state (toDownload tips order s) s >>= fun s' => .ok (.next s')) := by
  rw [fetchPass, if_neg fun hn => h (toDownload_eq_nil.mp hn)]

theorem any_contains {order : HashOrder CommitHash} {newWants : Finset CommitHash} :
    (order.enum newWants).any (tips.contains ·) = true ↔ ∃ c ∈ newWants, c ∈ tips := by
  simp only [List.any_eq_true, order.mem_enum, Std.ExtTreeMap.contains_iff_mem]

/-- A pass goes on after downloads, or with the missing commits as new wants. -/
theorem fetchPass_next (h : FetchPass git net state tips s (.ok (.next s'))) :
    (¬ Drained tips s ∧ ∃ order : HashOrder CommitHash,
        downloadBundles git net state (toDownload tips order s) s = .ok s') ∨
      (Drained tips s ∧ ∃ (order : HashOrder CommitHash) (newWants walked : Finset CommitHash),
        walkUnresolvedParents git s.db order s.wanted s.walked = .ok (newWants, walked) ∧
        (∃ c ∈ newWants, c ∈ tips) ∧
        s' = { s with walked := walked, wanted := s.wanted ∪ newWants }) := by
  rcases h with ⟨order, h⟩
  by_cases hd : Drained tips s
  · right
    rw [fetchPass_drained hd] at h
    obtain ⟨⟨newWants, walked⟩, hw, h⟩ := bind_eq_ok.mp h
    split_ifs at h with h₁ h₂
    · cases h
    · cases h
      exact ⟨hd, order, newWants, walked, hw, any_contains.mp h₂, rfl⟩
  · left
    rw [fetchPass_not_drained hd] at h
    obtain ⟨s₁, hs, h⟩ := bind_eq_ok.mp h
    cases h
    exact ⟨hd, order, hs⟩

/-- A pass breaks when nothing is left to download and no commit is missing. -/
theorem fetchPass_done (h : FetchPass git net state tips s (.ok (.done s'))) :
    Drained tips s ∧ ∃ (order : HashOrder CommitHash) (walked : Finset CommitHash),
      walkUnresolvedParents git s.db order s.wanted s.walked = .ok (∅, walked) ∧
      s' = { s with walked := walked } := by
  rcases h with ⟨order, h⟩
  by_cases hd : Drained tips s
  · rw [fetchPass_drained hd] at h
    obtain ⟨⟨newWants, walked⟩, hw, h⟩ := bind_eq_ok.mp h
    split_ifs at h with h₁
    · cases h
      dsimp only at h₁
      subst h₁
      exact ⟨hd, order, walked, hw, rfl⟩
    · cases h
  · rw [fetchPass_not_drained hd] at h
    obtain ⟨s₁, -, h⟩ := bind_eq_ok.mp h
    cases h

/-- A pass fails in a download, in the walk, or because no bundle advertises a
missing commit. -/
theorem fetchPass_error {e : Fault String} (h : FetchPass git net state tips s (.error e)) :
    (¬ Drained tips s ∧ ∃ order : HashOrder CommitHash,
        downloadBundles git net state (toDownload tips order s) s = .error e) ∨
      (Drained tips s ∧ ∃ order : HashOrder CommitHash,
        walkUnresolvedParents git s.db order s.wanted s.walked = .error e ∨
        ∃ newWants walked : Finset CommitHash,
          walkUnresolvedParents git s.db order s.wanted s.walked = .ok (newWants, walked) ∧
          newWants ≠ ∅ ∧ (∀ c ∈ newWants, c ∉ tips) ∧
          e = .err (couldNotConverge (order.enum newWants))) := by
  rcases h with ⟨order, h⟩
  by_cases hd : Drained tips s
  · right
    rw [fetchPass_drained hd] at h
    rcases bind_eq_error.mp h with h | ⟨⟨newWants, walked⟩, hw, h⟩
    · exact ⟨hd, order, .inl h⟩
    · split_ifs at h with h₁ h₂
      cases h
      refine ⟨hd, order, .inr ⟨newWants, walked, hw, h₁, fun c hc ht => ?_, rfl⟩⟩
      exact h₂ (any_contains.mpr ⟨c, hc, ht⟩)
  · left
    rw [fetchPass_not_drained hd] at h
    rcases bind_eq_error.mp h with h | ⟨_, -, h⟩
    · exact ⟨hd, order, h⟩
    · cases h

end

/-! ## When the loop ends -/

section

variable {D : Type} (git : Git D) (state : RepoState) (tips : BTreeMap CommitHash ObjectBundleId)
  (s : FetchState D)

/-- The walk meets `c`, which is not local. -/
def MissingAt (c : CommitHash) : Prop :=
  Visited git s.db s.wanted s.walked c ∧ lookUp git s.db c = .ok none

/-- Nothing is left to download, and the missing commits that some bundle
advertises, of which there are, are those of bundles downloaded already. -/
structure Stuck : Prop where
  drained : Drained tips s
  looked : ∀ c, Visited git s.db s.wanted s.walked c → ∃ l, lookUp git s.db c = .ok l
  advertised : ∃ c, MissingAt git s c ∧ c ∈ tips
  downloaded : ∀ c, MissingAt git s c → ∀ id, tips[c]? = some id → id ∈ s.downloaded

/-- Every bundle that is to be downloaded is in `object_index`. -/
def Indexed : Prop :=
  ∀ c ∈ s.wanted, ∀ id, tips[c]? = some id → id ∉ s.downloaded → id ∈ state.objectIndex

end

section

variable {D : Type} {git : Git D} {net : Nat → ObjectBundle → Except String Bytes}
  {state : RepoState} {tips : BTreeMap CommitHash ObjectBundleId} {s : FetchState D}

/-- An order that starts with a given element of a given set. -/
theorem exists_order (t : Finset CommitHash) {c : CommitHash} (hc : c ∈ t) :
    ∃ (order : HashOrder CommitHash) (l : List CommitHash), order.enum t = c :: l := by
  classical
  refine ⟨⟨fun u => if u = t then c :: (t.erase c).toList else u.toList, fun u => ?_⟩,
    (t.erase c).toList, if_pos rfl⟩
  by_cases hu : u = t
  · rw [if_pos hu, hu, ← Multiset.cons_coe, Finset.coe_toList, Finset.erase_val]
    exact Multiset.cons_erase hc
  · rw [if_neg hu, Finset.coe_toList]

theorem exists_hashOrder : Nonempty (HashOrder CommitHash) :=
  ⟨⟨Finset.toList, Finset.coe_toList⟩⟩

/-- A stuck pass goes on and the next one is stuck as well. -/
theorem Stuck.step (h : Stuck git tips s) :
    ∃ s', Loop.Step (FetchPass git net state tips) s s' ∧ Stuck git tips s' := by
  obtain ⟨order⟩ := exists_hashOrder
  obtain ⟨⟨newWants, walked⟩, hw⟩ : ∃ r, walkUnresolvedParents git s.db order s.wanted s.walked =
      .ok r := traverse_total fun c hc => h.looked c (found_enum.mp hc)
  have hnew : ∀ c, c ∈ newWants ↔ MissingAt git s c := (walk_eq_ok hw).1
  have hagain : walkUnresolvedParents git s.db order (s.wanted ∪ newWants) walked =
      .ok (newWants, walked) := by
    refine traverse_settled hw (fun c hc => ?_) fun c hc => ?_
    · rw [List.mem_reverse, order.mem_enum] at hc
      rcases Finset.mem_union.mp hc with hc | hc
      · exact (walk_covers hw).1 c hc
      · exact .inr hc
    · rw [List.mem_reverse, order.mem_enum]
      exact Finset.mem_union_right _ hc
  have hmissing : ∀ c, MissingAt git { s with walked := walked, wanted := s.wanted ∪ newWants } c ↔
      MissingAt git s c := fun c => ((walk_eq_ok hagain).1 c).symm.trans (hnew c)
  refine ⟨{ s with walked := walked, wanted := s.wanted ∪ newWants }, ⟨order, ?_⟩, ?_, ?_, ?_, ?_⟩
  · obtain ⟨c, hc, ht⟩ := h.advertised
    have hne : newWants ≠ ∅ := Finset.ne_empty_of_mem ((hnew c).mpr hc)
    rw [fetchPass_drained h.drained, hw]
    change (if newWants = ∅ then _ else _) = _
    rw [if_neg hne, if_pos (any_contains.mpr ⟨c, (hnew c).mpr hc, ht⟩)]
  · intro c hc id hid
    rcases Finset.mem_union.mp hc with hc | hc
    · exact h.drained c hc id hid
    · exact h.downloaded c ((hnew c).mp hc) id hid
  · intro c hc
    exact traverse_looked hagain c (found_enum.mpr hc)
  · obtain ⟨c, hc, ht⟩ := h.advertised
    exact ⟨c, (hmissing c).mpr hc, ht⟩
  · intro c hc id hid
    exact h.downloaded c ((hmissing c).mp hc) id hid

/-- The bundles not yet downloaded, and whether the next pass walks. -/
noncomputable def fetchMeasure (tips : BTreeMap CommitHash ObjectBundleId) (s : FetchState D) : ℕ :=
  open scoped Classical in
  2 * ((tips.toList.map (·.2)).toFinset \ s.downloaded).card + if Drained tips s then 1 else 0

/-- A pass that goes on and is not stuck lowers the measure. -/
theorem fetchMeasure_lt {s' : FetchState D} (hstuck : ¬ Stuck git tips s)
    (hstep : Loop.Step (FetchPass git net state tips) s s') :
    fetchMeasure tips s' < fetchMeasure tips s := by
  have hrange : ∀ {c : CommitHash} {id : ObjectBundleId}, tips[c]? = some id →
      id ∈ (tips.toList.map (·.2)).toFinset := fun {c id} h => by
    refine List.mem_toFinset.mpr (List.mem_map.mpr ⟨(c, id), ?_, rfl⟩)
    exact Std.ExtTreeMap.mem_toList_iff_getElem?_eq_some.mpr h
  rcases fetchPass_next hstep with ⟨hd, order, hdl⟩ | ⟨hd, order, newWants, walked, hw, hadv, rfl⟩
  · -- a download: one bundle less to go
    obtain ⟨-, -, hdown, -⟩ := downloadBundles_eq_ok hdl
    have hlt : ((tips.toList.map (·.2)).toFinset \ s'.downloaded).card <
        ((tips.toList.map (·.2)).toFinset \ s.downloaded).card := by
      rw [hdown]
      obtain ⟨id, hid⟩ := List.exists_mem_of_ne_nil _ fun hn => hd (toDownload_eq_nil.mp hn)
      obtain ⟨⟨c, -, hc⟩, hnd⟩ := mem_toDownload.mp hid
      refine Finset.card_lt_card (Finset.ssubset_iff_of_subset ?_ |>.mpr ⟨id, ?_, ?_⟩)
      · exact Finset.sdiff_subset_sdiff (Finset.Subset.refl _) Finset.subset_union_left
      · exact Finset.mem_sdiff.mpr ⟨hrange hc, hnd⟩
      · intro h
        exact (Finset.mem_sdiff.mp h).2 (Finset.mem_union_right _ (List.mem_toFinset.mpr hid))
    unfold fetchMeasure
    split_ifs <;> omega
  · -- a walk: the next pass downloads
    have hnd : ¬ Drained tips { s with walked := walked, wanted := s.wanted ∪ newWants } := by
      intro hd'
      refine hstuck ⟨hd, fun c hc => traverse_looked hw c (found_enum.mpr hc), ?_, ?_⟩
      · obtain ⟨c, hc, ht⟩ := hadv
        exact ⟨c, ((walk_eq_ok hw).1 c).mp hc, ht⟩
      · intro c hc id hid
        exact hd' c (Finset.mem_union_right _ (((walk_eq_ok hw).1 c).mpr hc)) id hid
    unfold fetchMeasure
    rw [if_pos hd, if_neg hnd]
    exact Nat.lt_succ_self _

/-- A pass panics only at a bundle that is not in `object_index`. -/
theorem not_indexed_of_panicked (hgit : PrintsCommits git)
    (h : FetchPass git net state tips s (.error .panicked)) : ¬ Indexed state tips s := by
  intro hi
  rcases fetchPass_error h with ⟨-, order, h⟩ | ⟨-, order, h | ⟨_, _, -, -, -, h⟩⟩
  · obtain ⟨id, hid, hn⟩ := downloadBundles_panicked h
    obtain ⟨⟨c, hc, hid⟩, hd⟩ := mem_toDownload.mp hid
    exact hn (hi c hc id hid hd)
  · obtain ⟨c, -, hc⟩ := traverse_eq_error h
    exact lookUp_ne_panicked hgit c hc
  · cases h

/-- A bundle that is not in `object_index` may be the first one of its pass. -/
theorem panicked_of_not_indexed (h : ¬ Indexed state tips s) :
    FetchPass git net state tips s (.error .panicked) := by
  simp only [Indexed, not_forall] at h
  obtain ⟨c, hc, id, hid, hd, hn⟩ := h
  obtain ⟨order, l, hl⟩ := exists_order s.wanted hc
  have hlist : ∃ ids, toDownload tips order s = id :: ids := by
    rw [toDownload, hl, List.filterMap_cons, hid]
    exact ⟨_, List.filter_cons_of_pos (decide_eq_true hd)⟩
  obtain ⟨ids, hlist⟩ := hlist
  have hnd : ¬ Drained tips s := fun h => hd (h c hc id hid)
  refine ⟨order, ?_⟩
  rw [fetchPass_not_drained hnd, hlist, downloadBundles, List.foldlM_cons, downloadBundle,
    Std.ExtTreeMap.getElem?_eq_none hn]
  rfl

/-- The first pass for one wanted commit downloads the bundle that has it as its tip. -/
theorem first_pass {db db' : D} {c : CommitHash} {id : ObjectBundleId} {r : ObjectBundleRecord}
    {pack : Bytes} (ht : tips[c]? = some id) (hr : state.objectIndex[id]? = some r)
    (hn : net 1 r.bundle = .ok pack) (hi : installPack git db pack = .ok db')
    (order : HashOrder CommitHash) : fetchPass git net state tips order ⟨db, {c}, ∅, ∅, 1⟩ =
      .ok (.next ⟨db', {c}, ∅, insert id ∅, 2⟩) := by
  have hlist : toDownload tips order (⟨db, {c}, ∅, ∅, 1⟩ : FetchState D) = [id] := by
    rw [toDownload, order.enum_singleton, List.filterMap_cons, ht]
    rfl
  have hnd : ¬ Drained tips (⟨db, {c}, ∅, ∅, 1⟩ : FetchState D) := fun h =>
    Finset.notMem_empty _ (h c (Finset.mem_singleton_self _) id ht)
  rw [fetchPass_not_drained hnd, hlist, downloadBundles, List.foldlM_cons, downloadBundle, hr]
  dsimp only
  rw [hn]
  dsimp only
  rw [hi]
  rfl

theorem first_step {db db' : D} {c : CommitHash} {id : ObjectBundleId} {r : ObjectBundleRecord}
    {pack : Bytes} (ht : tips[c]? = some id) (hr : state.objectIndex[id]? = some r)
    (hn : net 1 r.bundle = .ok pack) (hi : installPack git db pack = .ok db') :
    Loop.Step (FetchPass git net state tips) ⟨db, {c}, ∅, ∅, 1⟩ ⟨db', {c}, ∅, insert id ∅, 2⟩ := by
  obtain ⟨order⟩ := exists_hashOrder
  exact ⟨order, first_pass ht hr hn hi order⟩

/-- Where the wanted commit leads nowhere, a pass that downloads nothing breaks. -/
theorem leaf_pass {c : CommitHash} (hd : Drained tips s) (hwanted : s.wanted = {c})
    (hwalked : s.walked = ∅) (h : lookUp git s.db c = .ok (some []))
    (order : HashOrder CommitHash) : fetchPass git net state tips order s =
      .ok (.done { s with walked := insert c ∅ }) := by
  have hwalk : walkUnresolvedParents git s.db order s.wanted s.walked = .ok (∅, insert c ∅) := by
    rw [walkUnresolvedParents, hwanted, hwalked, order.enum_singleton, List.reverse_singleton,
      Lib.traverse, dif_neg (Finset.notMem_empty c), h]
    dsimp only
    rw [List.filter_nil, List.reverse_nil, List.nil_append, Lib.traverse]
  rw [fetchPass_drained hd, hwalk]
  rfl

/-- **The loop ends, and not in a panic,** from any values of its variables and
for any tips, exactly when no pass is stuck and every bundle it looks up is in
`object_index`. -/
theorem fetch_ends_iff (hgit : PrintsCommits git) :
    (Loop.Terminates (FetchPass git net state tips) s ∧
        ¬ Loop.Exits (FetchPass git net state tips) s (.error .panicked)) ↔
      ∀ s', Loop.Reaches (FetchPass git net state tips) s s' →
        ¬ Stuck git tips s' ∧ Indexed state tips s' := by
  constructor
  · rintro ⟨hterm, hpanic⟩ s' hr
    constructor
    · intro hstuck
      exact Loop.not_terminates_of_recurs (fun _ h => h.step) hstuck (hterm.reaches hr)
    · by_contra hi
      exact hpanic (.error hr (panicked_of_not_indexed hi))
  · intro h
    constructor
    · exact Loop.terminates_of_variant (Loop.Reaches (FetchPass git net state tips) s)
        (fun _ _ hr hs => Relation.ReflTransGen.tail hr hs)
        (fetchMeasure _) (fun s' _ hr hs => fetchMeasure_lt (h s' hr).1 hs) .refl
    · rintro (_ | ⟨hr, hb⟩)
      exact not_indexed_of_panicked hgit hb (h _ hr).2

end

/-! A ref whose bundle is advertised for its target and holds no objects. -/

namespace Sample

def tipId : ObjectBundleId := pack.id unsigned

def tipped : RepoState :=
  { RepoState.default with
    refs := (∅ : BTreeMap RefName RefEntry).insert main ⟨sha 1, 1, owner, 0, sig 1⟩
    objectIndex := (∅ : BTreeMap ObjectBundleId ObjectBundleRecord).insert tipId
      ⟨pack, owner, 0, sig 2⟩
    extensions := (∅ : BTreeMap String ExtensionEntry).insert (bundleTipExtensionKey tipId)
      ⟨(sha 1).toList, 1, sig 3⟩ }

def tippedCrypto : Crypto :=
  crypto [(.ref main (sha 1) 1 0, sig 1), (.bundle pack 0, sig 2),
    (.extension (bundleTipExtensionKey tipId) (sha 1).toList 1, sig 3)]

def tippedTips : List (ObjectBundleId × CommitHash) := [(tipId, sha 1)]

/-- A repository that never gets an object. -/
noncomputable def hollow : Git (Set CommitHash) := refGit (fun _ => .blob) fun _ => ∅

/-- The variables before the loop, and after the download of the empty pack. -/
def unfetched : FetchState (Set CommitHash) := ⟨∅, {sha 1}, ∅, ∅, 1⟩

def fetched : FetchState (Set CommitHash) := ⟨∅ ∪ ∅, {sha 1}, ∅, insert tipId ∅, 2⟩

theorem tipped_accepted : Accepted tippedCrypto params tipped := by
  refine accepted_of_table ?_ rfl (fun st σ hs => ?_) (fun n e h => ?_) fun id r h => ?_
  · exact nodup_sigs (l := [1, 2, 3]) (by decide)
  · cases hs with
    | ref h =>
        obtain ⟨rfl, rfl⟩ := single_eq h
        exact ⟨List.mem_cons_self, (by decide : (utf8 main).length ≤ limits.maxRefNameBytes)⟩
    | bundle h =>
        obtain ⟨-, rfl⟩ := single_eq h
        exact ⟨List.mem_cons_of_mem _ List.mem_cons_self, trivial⟩
    | extension h =>
        obtain ⟨rfl, rfl⟩ := single_eq h
        exact ⟨List.mem_cons_of_mem _ (List.mem_cons_of_mem _ List.mem_cons_self),
          length_bundleTipExtensionKey _, Vector.length_toList.trans_le (by decide)⟩
    | name h | description h | defaultBranch h | forcePushAllowed h | acl h | upgrade h => cases h
  · obtain ⟨rfl, rfl⟩ := single_eq h
    rfl
  · obtain ⟨rfl, rfl⟩ := single_eq h
    exact ⟨rfl, rfl⟩

theorem tipped_tips : (collectBundleTipExtensions tipped).toList = tippedTips := by decide

theorem tippedTips_lookup : (tipToBundle tippedTips)[sha 1]? = some tipId := by decide +kernel

theorem tippedTips_range {c : CommitHash} {id : ObjectBundleId}
    (h : (tipToBundle tippedTips)[c]? = some id) : id = tipId := by
  rcases of_collect h with ⟨e, he, h⟩
  cases List.mem_singleton.mp he
  cases h
  rfl

theorem fetched_stuck : Stuck hollow (tipToBundle tippedTips) fetched := by
  have hlook : ∀ c, lookUp hollow fetched.db c = .ok none := fun c =>
    refGit_spec.lookUp_missing (by rintro (h | h) <;> cases h)
  refine ⟨fun c _ id hid => ?_, fun c _ => ⟨_, hlook c⟩, ⟨sha 1, ⟨?_, hlook _⟩, ?_⟩, fun c _ id hid => ?_⟩
  · exact tippedTips_range hid ▸ Finset.mem_insert_self _ _
  · exact .root (Finset.mem_toList.mpr (Finset.mem_singleton_self _)) (Finset.notMem_empty _)
  · exact mem_iff_getElem?.mpr ⟨_, tippedTips_lookup⟩
  · exact tippedTips_range hid ▸ Finset.mem_insert_self _ _

theorem unfetched_step :
    Loop.Step (FetchPass hollow (fun _ _ => .ok []) tipped (tipToBundle tippedTips)) unfetched
      fetched := by
  have hrecord : tipped.objectIndex[tipId]? = some ⟨pack, owner, 0, sig 2⟩ := by decide +kernel
  exact first_step tippedTips_lookup hrecord rfl rfl

end Sample

theorem fetch_ends_iff_tipped :
    (Loop.Terminates (FetchPass Sample.hollow (fun _ _ => .ok []) Sample.tipped
        (tipToBundle Sample.tippedTips)) Sample.unfetched ∧
      ¬ Loop.Exits (FetchPass Sample.hollow (fun _ _ => .ok []) Sample.tipped
        (tipToBundle Sample.tippedTips)) Sample.unfetched (.error .panicked)) ↔
      ∀ s', Loop.Reaches (FetchPass Sample.hollow (fun _ _ => .ok []) Sample.tipped
          (tipToBundle Sample.tippedTips)) Sample.unfetched s' →
        ¬ Stuck Sample.hollow (tipToBundle Sample.tippedTips) s' ∧
          Indexed Sample.tipped (tipToBundle Sample.tippedTips) s' :=
  fetch_ends_iff refGit_printsCommits

/-- The state is accepted, its bundle can be downloaded, and the loop goes on for
ever. -/
theorem fetch_not_terminates :
    validateState Sample.tippedCrypto Sample.params Sample.tipped = .ok () ∧
    Sample.tippedTips.Perm (collectBundleTipExtensions Sample.tipped).toList ∧
    fetchStart Sample.hollow (fun _ _ => .ok []) Sample.tipped ∅
      [(hexEncodeCommit (Sample.sha 1), Sample.main)] = .ok Sample.unfetched ∧
    ¬ Loop.Terminates (FetchPass Sample.hollow (fun _ _ => .ok []) Sample.tipped
      (tipToBundle Sample.tippedTips)) Sample.unfetched := by
  have hlegacy : legacyIds Sample.tipped = [] := by decide +kernel
  have hwanted : wantedCommits Sample.tipped [(hexEncodeCommit (Sample.sha 1), Sample.main)] =
      {Sample.sha 1} := by decide
  refine ⟨validateState_eq_ok.mpr Sample.tipped_accepted, Sample.tipped_tips ▸ List.Perm.refl _, ?_,
    fun h => ?_⟩
  · rw [fetchStart, hlegacy, hwanted]
    rfl
  · exact Loop.not_terminates_of_recurs (fun _ h => h.step) Sample.fetched_stuck
      (h.reaches (.single Sample.unfetched_step))

end FreenetGit
