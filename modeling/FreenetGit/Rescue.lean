/-
# `FreenetGit.Rescue` — which bundles a rescue keeps alive

`rescue` puts the bundles of a repo back into the network.  With the
tip-reachability filter on it leaves out the bundles whose tip is not the target of a
ref.  The filter looks up one key for each bundle; `handle_fetch` reads the tips from
all keys that name a bundle.  `rescue_keeps` says where the two agree.
-/
import FreenetGit.Convergence
import FreenetGit.Fetch

namespace FreenetGit

open Lib

/-! ## The filter -/

section

variable (state : RepoState)

/-- The set of `reachable_bundle_ids`. -/
def reachableBundleIds : Finset ObjectBundleId :=
  let currentTips := (state.refs.values.map fun entry => entry.target.toList).toFinset
  (state.objectIndex.keys.filter fun id =>
    match state.extensions[bundleTipExtensionKey id]? with
    | none => false
    | some ext => ext.value ∈ currentTips).toFinset

/-- `partition_bundles_for_rescue`. -/
def partitionBundlesForRescue (onlyCurrentTips : Bool) :
    List (ObjectBundleId × ObjectBundleRecord) × Nat :=
  if !onlyCurrentTips then (state.objectIndex.toList, 0)
  else
    let reachable := reachableBundleIds state
    state.objectIndex.toList.foldl (fun (kept, skipped) (id, record) =>
      if id ∈ reachable then (kept ++ [(id, record)], skipped) else (kept, skipped + 1)) ([], 0)

inductive DetectedMirrorMode where
  | snapshot
  | history
deriving DecidableEq

/-- `detect_mirror_mode`. -/
def detectMirrorMode : Option DetectedMirrorMode :=
  match state.extensions[mirrorModeExtensionKey]? with
  | none => none
  | some ext =>
      if ext.value = utf8 "snapshot" then some .snapshot
      else if ext.value = utf8 "history" then some .history
      else none

/-- Whether `rescue` filters: `--rescue-all` and `--only-current-tips` come before what
the contract advertises. -/
def effectiveOnlyCurrentTips (onlyCurrentTips rescueAll : Bool) : Bool :=
  if rescueAll then false
  else if onlyCurrentTips then true
  else match detectMirrorMode state with
    | some .snapshot => true
    | some .history | none => false

/-- The bundles that `rescue` puts back; it stops where the filter leaves none. -/
def rescueSet (onlyCurrentTips rescueAll : Bool) :
    Except String (List (ObjectBundleId × ObjectBundleRecord) × Nat) :=
  let effective := effectiveOnlyCurrentTips state onlyCurrentTips rescueAll
  let (kept, skipped) := partitionBundlesForRescue state effective
  if effective ∧ state.objectIndex ≠ ∅ ∧ kept = [] then
    .error ("tip-reachability filter skipped all " ++ toString state.objectIndex.size ++
      " bundle(s) in this contract; no bundle's tip extension matches a current ref. Likely " ++
      "causes: the contract has no refs (empty state.refs), every tip extension is malformed, " ++
      "this is a history-mode contract where the filter is unsafe, or the contract advertises " ++
      "mirror-mode=snapshot but the most recent push hasn't landed yet. Re-run `freenet-git " ++
      "rescue --rescue-all` to bypass the filter and rescue everything regardless of contract " ++
      "metadata.")
  else .ok (kept, skipped)

end

/-! ## What the filter keeps -/

section

variable {state : RepoState} {id : ObjectBundleId} {record : ObjectBundleRecord}

theorem mem_reachableBundleIds : id ∈ reachableBundleIds state ↔
    (∃ record, state.objectIndex[id]? = some record) ∧
      ∃ ext, state.extensions[bundleTipExtensionKey id]? = some ext ∧
        ∃ entry ∈ state.refs.values, ext.value = entry.target.toList := by
  rw [reachableBundleIds, List.mem_toFinset, List.mem_filter, Std.ExtTreeMap.mem_keys,
    mem_iff_getElem?]
  refine and_congr_right fun _ => ?_
  cases state.extensions[bundleTipExtensionKey id]? with
  | none => simp
  | some ext => simp [eq_comm]

/-- One bundle is kept or skipped. -/
theorem foldl_partition (reachable : Finset ObjectBundleId) :
    ∀ (l kept : List (ObjectBundleId × ObjectBundleRecord)) (skipped : Nat),
      l.foldl (fun (kept, skipped) (id, record) =>
          if id ∈ reachable then (kept ++ [(id, record)], skipped) else (kept, skipped + 1))
        (kept, skipped) =
      (kept ++ l.filter (·.1 ∈ reachable), skipped + l.countP (·.1 ∉ reachable))
  | [], kept, skipped => by simp
  | (id, record) :: l, kept, skipped => by
      rw [List.foldl_cons]
      by_cases hid : id ∈ reachable
      · simp only [if_pos hid]
        rw [foldl_partition reachable l]
        simp [hid]
      · simp only [if_neg hid]
        rw [foldl_partition reachable l]
        simp [hid]
        omega

theorem partition_eq : partitionBundlesForRescue state true =
    (state.objectIndex.toList.filter (·.1 ∈ reachableBundleIds state),
      state.objectIndex.toList.countP (·.1 ∉ reachableBundleIds state)) := by
  have h := foldl_partition (reachableBundleIds state) state.objectIndex.toList [] 0
  rw [List.nil_append, Nat.zero_add] at h
  exact h

/-- Every bundle is kept or counted. -/
theorem length_kept_add_skipped : (partitionBundlesForRescue state true).1.length +
    (partitionBundlesForRescue state true).2 = state.objectIndex.size := by
  rw [partition_eq, ← List.countP_eq_length_filter, ← Std.ExtTreeMap.length_toList]
  have h := List.length_eq_countP_add_countP (fun p : ObjectBundleId × ObjectBundleRecord =>
    decide (p.1 ∈ reachableBundleIds state)) (l := state.objectIndex.toList)
  simpa using h.symm

/-- No bundle is kept twice. -/
theorem nodup_kept : ((partitionBundlesForRescue state true).1.map (·.1)).Nodup := by
  rw [partition_eq]
  have hkeys : (state.objectIndex.toList.map (·.1)).Nodup :=
    Std.ExtTreeMap.map_fst_toList_eq_keys (t := state.objectIndex) ▸ Std.ExtTreeMap.nodup_keys
  exact hkeys.sublist (List.filter_sublist.map _)

theorem mem_kept : (id, record) ∈ (partitionBundlesForRescue state true).1 ↔
    state.objectIndex[id]? = some record ∧
      ∃ ext, state.extensions[bundleTipExtensionKey id]? = some ext ∧
        ∃ entry ∈ state.refs.values, ext.value = entry.target.toList := by
  rw [partition_eq, List.mem_filter, Std.ExtTreeMap.mem_toList_iff_getElem?_eq_some,
    decide_eq_true_iff, mem_reachableBundleIds]
  constructor
  · rintro ⟨hrecord, -, h⟩
    exact ⟨hrecord, h⟩
  · rintro ⟨hrecord, h⟩
    exact ⟨hrecord, ⟨record, hrecord⟩, h⟩

/-- Of the keys that name a bundle, the canonical one is the last. -/
theorem not_lt_of_parseBundleTipExtensionKey {k : String}
    (h : parseBundleTipExtensionKey k = some id) : ¬ bundleTipExtensionKey id < k := by
  rw [parseBundleTipExtensionKey] at h
  split at h
  · next hprefix =>
      dsimp only at h
      split at h
      · cases h
      · obtain ⟨bs, hbs, hid⟩ := Option.bind_eq_some_iff.mp h
        have hbytes : bs = id.toList := length_of_toArray? hid
        have hk : k.toList = bundleTipExtensionPrefix.toList ++
            k.toList.drop bundleTipExtensionPrefix.toList.length := by
          obtain ⟨rest, hrest⟩ := List.isPrefixOf_iff_prefix.mp hprefix
          rw [← hrest, List.drop_left]
        have hle := @List.append_left_le Char _ _ _ bundleTipExtensionPrefix.toList _ _
          (List.not_lt.mp (not_lt_of_hexPairs hbs))
        rw [String.lt_iff, hk, bundleTipExtensionKey, String.toList_append, hexEncode,
          String.toList_ofList, ← hbytes]
        exact hle
  · cases h

/-- A usable entry under the canonical key is the tip that a fetch goes by. -/
theorem collect_canonical {ext : ExtensionEntry} {tip : CommitHash}
    (h : state.extensions[bundleTipExtensionKey id]? = some ext)
    (htip : ext.value = tip.toList) : (collectBundleTipExtensions state)[id]? = some tip := by
  obtain ⟨before, after, hlist⟩ :=
    List.append_of_mem (Std.ExtTreeMap.mem_toList_iff_getElem?_eq_some.mpr h)
  have hord := hlist ▸ (state.extensions.ordered_keys_toList)
  rw [collectBundleTipExtensions, hlist]
  refine collect_last ?_ fun e he tip' hte => ?_
  · rw [bundleTip, parseBundleTipExtensionKey_key, htip, toArray?_toList]
    rfl
  · rw [bundleTip] at hte
    split at hte
    · cases hte
    · next id' hparse =>
        obtain ⟨t, -, heq⟩ := Option.map_eq_some_iff.mp hte
        cases heq
        have hlt := (List.pairwise_cons.mp (List.pairwise_append.mp hord).2.1).1 e he
        exact not_lt_of_parseBundleTipExtensionKey hparse (compareOfLessAndEq_eq_lt.mp hlt)

theorem mem_current_tips {tip : CommitHash} :
    (∃ entry ∈ state.refs.values, tip.toList = entry.target.toList) ↔
      ∃ (name : RefName) (entry : RefEntry), state.refs[name]? = some entry ∧
        entry.target = tip := by
  simp only [mem_values, Vector.toList_inj]
  constructor
  · rintro ⟨entry, ⟨name, h⟩, rfl⟩
    exact ⟨name, entry, h, rfl⟩
  · rintro ⟨name, entry, h, rfl⟩
    exact ⟨entry, ⟨name, h⟩, rfl⟩

end

/-- **The rescue filter and the tips of a fetch.**  The bundles that are reachable are kept, each
once and in the order of the index, and the others are counted.  A bundle with a usable tip under
its canonical key is kept if and only if that tip, which is the one a fetch goes by, is the target
of a ref.  A bundle without a usable tip, which every fetch downloads, is skipped. -/
theorem rescue_keeps (state : RepoState) :
    partitionBundlesForRescue state true =
      (state.objectIndex.toList.filter (·.1 ∈ reachableBundleIds state),
        state.objectIndex.toList.countP (·.1 ∉ reachableBundleIds state)) ∧
    ((partitionBundlesForRescue state true).1.map (·.1)).Nodup ∧
    (partitionBundlesForRescue state true).1.length + (partitionBundlesForRescue state true).2 =
      state.objectIndex.size ∧
    (∀ (id : ObjectBundleId) (record : ObjectBundleRecord) (ext : ExtensionEntry)
        (tip : CommitHash), state.objectIndex[id]? = some record →
      state.extensions[bundleTipExtensionKey id]? = some ext → ext.value = tip.toList →
      (collectBundleTipExtensions state)[id]? = some tip ∧
        ((id, record) ∈ (partitionBundlesForRescue state true).1 ↔
          ∃ (name : RefName) (entry : RefEntry), state.refs[name]? = some entry ∧
            entry.target = tip)) ∧
    ∀ (id : ObjectBundleId) (record : ObjectBundleRecord), id ∈ legacyIds state →
      (id, record) ∉ (partitionBundlesForRescue state true).1 := by
  refine ⟨partition_eq, nodup_kept, length_kept_add_skipped,
    fun id record ext tip hrecord hext htip => ?_, fun id record hlegacy hkept => ?_⟩
  · refine ⟨collect_canonical hext htip, ?_⟩
    rw [mem_kept, ← mem_current_tips]
    constructor
    · rintro ⟨-, ext', hext', h⟩
      cases hext.symm.trans hext'
      rwa [htip] at h
    · exact fun h => ⟨hrecord, ext, hext, htip ▸ h⟩
  · obtain ⟨-, ext, hext, entry, -, htarget⟩ := mem_kept.mp hkept
    have htip := collect_canonical hext htarget
    have hno := (List.mem_filter.mp hlegacy).2
    rw [Std.ExtTreeMap.contains_iff_mem.mpr (mem_iff_getElem?.mpr ⟨_, htip⟩)] at hno
    cases hno

theorem rescue_drops_legacy :
    validateState Sample.epochCrypto Sample.params Sample.epochA = .ok () ∧
      legacyIds Sample.epochA = [Sample.pack.id Sample.unsigned] ∧
      partitionBundlesForRescue Sample.epochA true = ([], 1) :=
  ⟨Sample.epoch_accepted.1, by decide, by decide⟩

/-- A rescue that goes on has something to do, unless there are no bundles. -/
theorem rescueSet_ne_nil {state : RepoState} {onlyCurrentTips rescueAll : Bool}
    {kept : List (ObjectBundleId × ObjectBundleRecord)} {skipped : Nat}
    (h : rescueSet state onlyCurrentTips rescueAll = .ok (kept, skipped))
    (hne : state.objectIndex ≠ ∅) : kept ≠ [] := by
  unfold rescueSet at h
  dsimp only at h
  split at h
  · cases h
  · next hgo =>
      cases h
      intro hnil
      cases he : effectiveOnlyCurrentTips state onlyCurrentTips rescueAll with
      | true => exact hgo ⟨he, hne, hnil⟩
      | false =>
          rw [he] at hnil
          exact hne (Std.ExtTreeMap.toList_eq_nil_iff.mp hnil)

end FreenetGit
