/-
# `FreenetGit.PushRun` — what a run of pushes leaves in the contract

The owner pushes again and again, and the contract merges every delta.  What a
refspec publishes (`publication`) is read off the inputs of the push: the commit,
the `have`, the pack and its bundle.  A run leaves exactly its publications: each
bundle is indexed and has a tip, and nothing else is advertised (`Advertises`).
-/
import FreenetGit.Concurrent
import FreenetGit.Signer
import FreenetGit.Sync

namespace FreenetGit

open Lib

/-! ## What a push publishes -/

/-- A pack that was published for a commit, without what the `have` reaches. -/
structure Publication where
  tip : CommitHash
  have_ : Option CommitHash
  pack : Bytes
  bundle : ObjectBundle
deriving DecidableEq

/-- One call of `handle_push`. -/
structure PushCall where
  host : PushHost
  env : PushEnv
  pushes : List String

section

variable (cr : Crypto) (params : RepoParams) (key : SigningKey) (host : PushHost) (env : PushEnv)
  (state : RepoState)

/-- The target that `build_pack` excludes: it is a local commit. -/
def effectiveHave (prev : Option CommitHash) : Option CommitHash :=
  prev.filter fun h => (host.commitExists (hexEncode h.toList)).toOption.getD false

/-- What pushing `src` to `dst` publishes. -/
def publicationOf (force : Bool) (src dst : String) : Option Publication :=
  let prev := (state.refs[dst]?).map fun e => hexEncode e.target.toList
  if src.isEmpty then none
  else
    match host.resolveRef src with
    | .error _ => none
    | .ok newTarget =>
        if isAlreadyUpToDate prev newTarget then none
        else
          match buildPack host prev newTarget force with
          | .error _ => none
          | .ok pack =>
              match publishBundle cr host env pack, parseSha1 newTarget with
              | .ok bundle, .ok tip =>
                  some ⟨tip, effectiveHave host ((state.refs[dst]?).map (·.target)), pack, bundle⟩
              | _, _ => none

/-- What one refspec publishes. -/
def publication (spec : String) : Option Publication :=
  match parsePushSpec spec with
  | .error _ => none
  | .ok (force, src, dst) => publicationOf cr host env state force src dst

/-- What a push publishes, if it sends a delta. -/
def PushCall.publications (call : PushCall) : List Publication :=
  match handlePush cr params key call.host call.env state call.pushes with
  | .ok (some _, _) => call.pushes.filterMap (publication cr call.host call.env state)
  | _ => []

/-- A push of the owner, whose delta is merged; one that sends nothing changes nothing. -/
def OwnerPush (call : PushCall) (state' : RepoState) : Prop :=
  match handlePush cr params key call.host call.env state call.pushes with
  | .ok (some delta, _) => updateState cr params state delta = .ok state'
  | _ => state' = state

/-- What a run of pushes published. -/
def publications (tr : List (Transition RepoState PushCall)) : List Publication :=
  tr.flatMap fun t => t.event.publications cr params key t.before

end

/-! ## One refspec -/

section

variable {cr : Crypto} {params : RepoParams} {key : SigningKey} {host : PushHost} {env : PushEnv}
  {state : RepoState} {acc acc' : PushAcc}

/-- **A refspec adds the entries of what it publishes**, or publishes nothing and
leaves the delta as it is. -/
theorem pushSpec_publication {spec : String}
    (h : pushSpec cr params key host env state acc spec = .ok acc') :
    (publication cr host env state spec = none ∧ acc'.delta = acc.delta) ∨
      ∃ p dst, publication cr host env state spec = some p ∧
        Nonempty (AddsEntries cr params key state dst p.tip p.bundle acc acc') := by
  obtain ⟨⟨force, src, dst⟩, hspec, h⟩ := bind_eq_ok.mp h
  rw [publication, hspec]
  dsimp only at h ⊢
  unfold publicationOf
  split at h
  · next hsrc =>
      cases h
      exact .inl ⟨if_pos hsrc, rfl⟩
  · next hsrc =>
      obtain ⟨newTarget, hres, h⟩ := bind_eq_ok.mp h
      rw [if_neg hsrc, hres]
      dsimp only
      split at h
      · next hnew =>
          cases h
          exact .inl ⟨if_pos hnew, rfl⟩
      · next hnew =>
          rw [if_neg hnew]
          split at h
          · cases h
          · next e hpack =>
              cases h
              rw [hpack]
              exact .inl ⟨rfl, rfl⟩
          · next packBytes hpack =>
              obtain ⟨bundle, hpub, h⟩ := bind_eq_ok.mp h
              obtain ⟨target, ht, hadds⟩ := addEntries_eq_ok h
              rw [hpack]
              dsimp only
              rw [hpub, ht]
              exact .inr ⟨_, dst, rfl, hadds⟩

/-! ## What is advertised -/

/-- The state advertises the publications `F`, each of them and nothing else: refs
point to their tips, their bundles are indexed, and each bundle has one of the tips
it was published for. -/
structure Advertises (cr : Crypto) (F : List Publication) (s : RepoState) : Prop where
  refs : ∀ (n : RefName) (e : RefEntry), s.refs[n]? = some e → ∃ p ∈ F, p.tip = e.target
  records : ∀ (id : ObjectBundleId) (r : ObjectBundleRecord), s.objectIndex[id]? = some r →
    ∃ p ∈ F, p.bundle = r.bundle ∧ p.bundle.id cr = id
  extensions : ∀ (k : String) (e : ExtensionEntry), s.extensions[k]? = some e →
    k = mirrorModeExtensionKey ∨
      ∃ p ∈ F, k = bundleTipExtensionKey (p.bundle.id cr) ∧ e.value = p.tip.toList
  indexed : ∀ p ∈ F, ∃ r, s.objectIndex[p.bundle.id cr]? = some r
  tipped : ∀ p ∈ F, ∃ e, s.extensions[bundleTipExtensionKey (p.bundle.id cr)]? = some e

variable {F G : List Publication} {s s' t : RepoState}

theorem Advertises.empty (hr : s.refs = ∅) (hi : s.objectIndex = ∅) (he : s.extensions = ∅) :
    Advertises cr [] s := by
  refine ⟨fun n e h => ?_, fun id r h => ?_, fun k e h => ?_, nofun, nofun⟩
  · rw [hr, Std.ExtTreeMap.getElem?_empty] at h
    cases h
  · rw [hi, Std.ExtTreeMap.getElem?_empty] at h
    cases h
  · rw [he, Std.ExtTreeMap.getElem?_empty] at h
    cases h

/-- A published pack is advertised by the entries it adds. -/
theorem Advertises.adds {p : Publication} {dst : RefName} (h : Advertises cr F acc.delta)
    (ha : AddsEntries cr params key state dst p.tip p.bundle acc acc') :
    Advertises cr (F ++ [p]) acc'.delta := by
  have hp : p ∈ F ++ [p] := List.mem_append_right _ (List.mem_singleton_self _)
  have hold : ∀ {q}, q ∈ F → q ∈ F ++ [p] := fun hq => List.mem_append_left _ hq
  have htarget : ha.entry.target = p.tip := by
    obtain ⟨sig, -, he⟩ := Option.map_eq_some_iff.mp ha.entry_eq
    rw [← he]
  have hbundle : ha.record.bundle = p.bundle := by
    obtain ⟨sig, -, he⟩ := Option.map_eq_some_iff.mp ha.record_eq
    rw [← he]
  have hvalue : ha.tip.value = p.tip.toList := by
    obtain ⟨sig, -, he⟩ := Option.map_eq_some_iff.mp ha.tip_eq
    rw [← he]
  refine ⟨fun n e he => ?_, fun id r hr => ?_, fun k e he => ?_, fun q hq => ?_, fun q hq => ?_⟩
  · rw [ha.refs_eq, getElem?_insert_eq] at he
    split at he
    · cases he
      exact ⟨p, hp, htarget.symm⟩
    · obtain ⟨q, hq, ht⟩ := h.refs n e he
      exact ⟨q, hold hq, ht⟩
  · rw [ha.objectIndex_eq, getElem?_insert_eq] at hr
    split at hr
    · next heq =>
        cases hr
        exact ⟨p, hp, hbundle.symm, heq⟩
    · obtain ⟨q, hq, hb, hid⟩ := h.records id r hr
      exact ⟨q, hold hq, hb, hid⟩
  · rw [ha.extensions_eq, getElem?_insert_eq] at he
    split at he
    · next heq =>
        cases he
        exact .inr ⟨p, hp, heq.symm, hvalue⟩
    · rcases h.extensions k e he with hk | ⟨q, hq, hk, hv⟩
      · exact .inl hk
      · exact .inr ⟨q, hold hq, hk, hv⟩
  · rw [ha.objectIndex_eq, getElem?_insert_eq]
    split
    · exact ⟨_, rfl⟩
    · next hne =>
        rcases List.mem_append.mp hq with hq | hq
        · exact h.indexed q hq
        · cases List.mem_singleton.mp hq
          exact absurd rfl hne
  · rw [ha.extensions_eq, getElem?_insert_eq]
    split
    · exact ⟨_, rfl⟩
    · next hne =>
        rcases List.mem_append.mp hq with hq | hq
        · exact h.tipped q hq
        · cases List.mem_singleton.mp hq
          exact absurd rfl hne

/-- The mirror mode advertises nothing. -/
theorem Advertises.mirrorMode (h : Advertises cr F acc.delta)
    (hm : pushMirrorMode cr params key env state acc = .ok acc') : Advertises cr F acc'.delta := by
  rcases pushMirrorMode_eq_ok hm with ⟨rfl, -⟩ | ⟨⟨w⟩⟩
  · exact h
  · rw [w.acc_eq]
    refine ⟨h.refs, h.records, fun k e hk => ?_, h.indexed, fun p hp => ?_⟩
    · rw [getElem?_insert_eq] at hk
      split at hk
      · next heq => exact .inl heq.symm
      · exact h.extensions k e hk
    · rw [getElem?_insert_eq]
      split
      · exact ⟨_, rfl⟩
      · exact h.tipped p hp

/-- The refspecs, one after another. -/
theorem Advertises.specs : ∀ {specs : List String} {acc acc' : PushAcc} {F : List Publication},
    Advertises cr F acc.delta →
    specs.foldlM (pushSpec cr params key host env state) acc = .ok acc' →
    Advertises cr (F ++ specs.filterMap (publication cr host env state)) acc'.delta
  | [], acc, acc', F, hF, h => by
      cases h
      rw [List.filterMap_nil, List.append_nil]
      exact hF
  | spec :: specs, acc, acc', F, hF, h => by
      rw [List.foldlM_cons] at h
      obtain ⟨acc₁, h₁, h⟩ := bind_eq_ok.mp h
      rcases pushSpec_publication h₁ with ⟨hnone, hd⟩ | ⟨p, dst, hsome, ⟨ha⟩⟩
      · rw [List.filterMap_cons_none hnone]
        exact Advertises.specs (hd ▸ hF) h
      · rw [List.filterMap_cons_some hsome, List.append_cons]
        exact Advertises.specs (hF.adds ha) h

/-- **The delta of a push** advertises what the push publishes. -/
theorem buildDelta_advertises {pushes : List String}
    (h : buildDelta cr params key host env state pushes = .ok acc) :
    Advertises cr (pushes.filterMap (publication cr host env state)) acc.delta := by
  obtain ⟨acc₁, h₁, hm⟩ := bind_eq_ok.mp h
  have hempty : Advertises cr [] (⟨RepoState.default, [], []⟩ : PushAcc).delta :=
    Advertises.empty rfl rfl rfl
  exact (hempty.specs h₁).mirrorMode hm

/-- **A merge** advertises what both sides advertise. -/
theorem Advertises.merge (hs : Advertises cr F s) (ht : Advertises cr G t) :
    Advertises cr (F ++ G) (mergeState s t) := by
  have hl : ∀ {q}, q ∈ F → q ∈ F ++ G := fun hq => List.mem_append_left _ hq
  have hr : ∀ {q}, q ∈ G → q ∈ F ++ G := fun hq => List.mem_append_right _ hq
  have hext : ∀ k, (mergeState s t).extensions[k]? =
      (Slot.extension k).picker.pickOpt s.extensions[k]? t.extensions[k]? :=
    fun k => mergeState_at s t (.extension k)
  refine ⟨fun n e he => ?_, fun id r hi => ?_, fun k e he => ?_, fun p hp => ?_, fun p hp => ?_⟩
  · rcases Picker.pickOpt_eq_some _ ((mergeState_at s t (.ref n)).symm.trans he) with h | h
    · obtain ⟨q, hq, htip⟩ := hs.refs n e h
      exact ⟨q, hl hq, htip⟩
    · obtain ⟨q, hq, htip⟩ := ht.refs n e h
      exact ⟨q, hr hq, htip⟩
  · rw [mergeState_objectIndex, Option.or_eq_some_iff] at hi
    rcases hi with h | ⟨-, h⟩
    · obtain ⟨q, hq, hb⟩ := hs.records id r h
      exact ⟨q, hl hq, hb⟩
    · obtain ⟨q, hq, hb⟩ := ht.records id r h
      exact ⟨q, hr hq, hb⟩
  · rcases Picker.pickOpt_eq_some _ ((hext k).symm.trans he) with h | h
    · rcases hs.extensions k e h with hk | ⟨q, hq, hk⟩
      · exact .inl hk
      · exact .inr ⟨q, hl hq, hk⟩
    · rcases ht.extensions k e h with hk | ⟨q, hq, hk⟩
      · exact .inl hk
      · exact .inr ⟨q, hr hq, hk⟩
  · rw [mergeState_objectIndex]
    rcases List.mem_append.mp hp with hp | hp
    · obtain ⟨r, h⟩ := hs.indexed p hp
      exact ⟨r, by rw [h]; rfl⟩
    · obtain ⟨r, h⟩ := ht.indexed p hp
      rw [h]
      cases s.objectIndex[p.bundle.id cr]? with
      | none => exact ⟨r, rfl⟩
      | some r' => exact ⟨r', rfl⟩
  · rw [hext]
    rcases List.mem_append.mp hp with hp | hp
    · obtain ⟨e, h⟩ := hs.tipped p hp
      rw [h]
      obtain ⟨e', he', -⟩ := Picker.pickOpt_some_left (Slot.extension _).picker e _
      exact ⟨e', he'⟩
    · obtain ⟨e, h⟩ := ht.tipped p hp
      rw [h]
      cases s.extensions[bundleTipExtensionKey (p.bundle.id cr)]? with
      | none => exact ⟨e, rfl⟩
      | some e' => exact ⟨_, rfl⟩

/-- A push whose delta is sent extends a run by its merge. -/
theorem run_sent {s₀ : RepoState} {tr : List (Transition RepoState PushCall)} {call : PushCall}
    {delta : RepoState} (hrun : Run (OwnerPush cr params key) s₀ tr s)
    (h : handlePush cr params key call.host call.env s call.pushes = .ok (some delta, acc)) :
    Run (OwnerPush cr params key) s₀ (tr ++ [⟨s, call, mergeState s delta⟩])
      (mergeState s delta) := by
  obtain ⟨-, hsent⟩ := handlePush_eq_ok h
  obtain ⟨-, s', hu⟩ := hsent delta rfl
  refine hrun.snoc ?_
  rw [OwnerPush, h]
  exact (updateState_eq_ok.mp hu).1 ▸ hu

theorem PushCall.publications_sent {call : PushCall} {delta : RepoState}
    (h : handlePush cr params key call.host call.env s call.pushes = .ok (some delta, acc)) :
    call.publications cr params key s =
      call.pushes.filterMap (publication cr call.host call.env s) := by
  rw [PushCall.publications, h]

/-- **A push** adds what it publishes to what the contract advertises. -/
theorem Advertises.push {call : PushCall} (h : Advertises cr F s)
    (hp : OwnerPush cr params key s call s') :
    Advertises cr (F ++ call.publications cr params key s) s' := by
  unfold OwnerPush at hp
  unfold PushCall.publications
  split at hp
  · next delta acc hpush =>
      obtain ⟨hbuild, hsent⟩ := handlePush_eq_ok hpush
      rw [(updateState_eq_ok.mp hp).1, (hsent delta rfl).1]
      exact h.merge (buildDelta_advertises hbuild)
  · subst hp
    rw [List.append_nil]
    exact h

/-- **A run of pushes** from the first state leaves exactly what it published. -/
theorem run_advertises {name description defaultBranch : String} {s₀ : RepoState}
    {tr : List (Transition RepoState PushCall)}
    (h₀ : initialRepoState cr params key name description defaultBranch = some s₀)
    (hrun : Run (OwnerPush cr params key) s₀ tr s) :
    Advertises cr (publications cr params key tr) s := by
  obtain ⟨hr, hi, he⟩ := initialRepoState_empty h₀
  have hstep : ∀ (tr : List (Transition RepoState PushCall)) (s : RepoState) (call : PushCall)
      (s' : RepoState), Advertises cr (publications cr params key tr) s →
      OwnerPush cr params key s call s' → True →
      Advertises cr (publications cr params key (tr ++ [⟨s, call, s'⟩])) s' := by
    intro tr s call s' h hp _
    rw [publications, List.flatMap_append, List.flatMap_singleton]
    exact h.push hp
  exact hrun.history (fun tr s => Advertises cr (publications cr params key tr) s)
    (Advertises.empty hr hi he) hstep fun _ _ => trivial

end

/-! The pushes of the sample's owner: each has one refspec, and the commit and the pack
are numbers. -/

namespace Sample

/-- A repository of the owner: every ref is the commit `n`, every pack is the pack `k`. -/
def signerHost (n k : UInt8) : PushHost where
  resolveRef _ := .ok (hexEncode (sha n).toList)
  commitExists _ := .ok true
  revPack _ _ := .ok (packOf k)
  putPack _ := .ok ()
  publishChunked _ := .error (.err "")

def signatureOf (st : Statement) : Signature :=
  signerKey.sign ((st.payload signerCrypto (signatureDomainKey signerCrypto params owner)).getD [])

def bundleId (k : UInt8) : ObjectBundleId := (bundleOf k).id signerCrypto

/-- What pushing the commit `n` in the pack `k` to `dst` adds. -/
def pushDelta (dst : RefName) (n k : UInt8) (seq : UInt64) : RepoState :=
  { RepoState.default with
    refs := (∅ : BTreeMap RefName RefEntry).insert dst
      ⟨sha n, seq, owner, 0, signatureOf (.ref dst (sha n) seq 0)⟩
    objectIndex := (∅ : BTreeMap ObjectBundleId ObjectBundleRecord).insert (bundleId k)
      ⟨bundleOf k, owner, 0, signatureOf (.bundle (bundleOf k) 0)⟩
    extensions := (∅ : BTreeMap String ExtensionEntry).insert (bundleTipExtensionKey (bundleId k))
      ⟨(sha n).toList, 1,
        signatureOf (.extension (bundleTipExtensionKey (bundleId k)) (sha n).toList 1)⟩ }

theorem signWith_eq (st : Statement) (h : st.WithinLimits) :
    signWith signerCrypto params signerKey (fun k => st.payload signerCrypto k) =
      some (signatureOf st) := by
  obtain ⟨sig, hs⟩ := exists_signWith signerCrypto params signerKey h
  rw [hs]
  obtain ⟨p, hp, rfl⟩ := Option.map_eq_some_iff.mp hs
  have hp : st.payload signerCrypto (signatureDomainKey signerCrypto params owner) = some p := hp
  rw [signatureOf, hp]
  rfl

theorem params_prefixOk : PrefixOk signerCrypto params owner := by
  have h : params = RepoParams.fromOwner signerCrypto owner 4 := by decide
  rw [h]
  exact prefixOk_fromOwner signer_base58 (by decide) (by decide)

section

variable {dst : RefName} {n k : UInt8} {seq : UInt64} {spec src : String} {force : Bool}
  {state : RepoState}

theorem signRef_eq (hdst : (utf8 dst).length ≤ limits.maxRefNameBytes) :
    signRefEntry signerCrypto params signerKey dst (sha n) seq 0 =
      some ⟨sha n, seq, owner, 0, signatureOf (.ref dst (sha n) seq 0)⟩ :=
  congrArg (Option.map _) (signWith_eq (.ref dst (sha n) seq 0) hdst)

theorem signBundle_eq : signBundleRecord signerCrypto params signerKey (bundleOf k) 0 =
    some ⟨bundleOf k, owner, 0, signatureOf (.bundle (bundleOf k) 0)⟩ :=
  congrArg (Option.map _) (signWith_eq (.bundle (bundleOf k) 0) trivial)

theorem signExtension_eq :
    signExtension signerCrypto params signerKey (bundleTipExtensionKey (bundleId k)) (sha n).toList 1 =
      some ⟨(sha n).toList, 1,
        signatureOf (.extension (bundleTipExtensionKey (bundleId k)) (sha n).toList 1)⟩ :=
  congrArg (Option.map _) (signWith_eq (.extension (bundleTipExtensionKey (bundleId k)) (sha n).toList 1)
    ⟨length_bundleTipExtensionKey _, Vector.length_toList.trans_le (by decide)⟩)

theorem signTip_eq :
    signBundleTipExtension signerCrypto params signerKey (bundleId k) (sha n) 1 =
      some (bundleTipExtensionKey (bundleId k), ⟨(sha n).toList, 1,
        signatureOf (.extension (bundleTipExtensionKey (bundleId k)) (sha n).toList 1)⟩) := by
  rw [signBundleTipExtension, signExtension_eq, Option.map_some]

/-- What a push adds was made by the signer. -/
theorem pushDelta_made (hdst : (utf8 dst).length ≤ limits.maxRefNameBytes) :
    MadeBySigner signerCrypto params signerKey { pushDelta dst n k seq with owner := owner } where
  owner := rfl
  name := nofun
  description := nofun
  defaultBranch := nofun
  forcePushAllowed := nofun
  acl := nofun
  upgrade := nofun
  ref m e he := by
    have he := getElem?_insert_eq.symm.trans he
    split at he
    · next heq =>
        rw [← heq, ← Option.some.inj he]
        exact ⟨hdst, _, _, _, signRef_eq hdst⟩
    · cases he
  record id r hr := by
    have hr := getElem?_insert_eq.symm.trans hr
    split at hr
    · next heq =>
        rw [← Option.some.inj hr]
        exact ⟨_, _, heq, signBundle_eq⟩
    · cases hr
  extension key e he := by
    have he := getElem?_insert_eq.symm.trans he
    split at he
    · next heq =>
        rw [← heq, ← Option.some.inj he]
        exact .inr ⟨_, _, _, signTip_eq⟩
    · cases he

/-- The owner's state accepts what the owner pushes. -/
theorem updateState_pushDelta (hstate : Accepted signerCrypto params state)
    (howner : state.owner = owner) (hdst : (utf8 dst).length ≤ limits.maxRefNameBytes) :
    updateState signerCrypto params state (pushDelta dst n k seq) =
      .ok (mergeState state (pushDelta dst n k seq)) :=
  updateState_kept hstate ((pushDelta_made hdst).accepted signer_verifies params_prefixOk) howner
    ⟨fun σ e he => by cases σ <;> exact he, fun _ _ hr => hr⟩

theorem publish_pack : publishBundle signerCrypto (signerHost n k) pushEnv (packOf k) =
    .ok (bundleOf k) := by
  rw [publishBundle, if_pos (by simp [packOf, pushEnv])]
  rfl

theorem buildPack_eq {prev : Option String} {want : String} :
    buildPack (signerHost n k) prev want force = .ok (packOf k) := by
  cases prev with
  | none => rfl
  | some h => rfl

theorem not_upToDate (hnew : (state.refs[dst]?).map (·.target) ≠ some (sha n)) :
    isAlreadyUpToDate ((state.refs[dst]?).map fun e => hexEncode e.target.toList)
      (hexEncode (sha n).toList) = false := by
  rw [isAlreadyUpToDate, beq_eq_false_iff_ne]
  intro h
  obtain ⟨e, he, h⟩ := Option.map_eq_some_iff.mp h
  refine hnew ?_
  rw [he, Option.map_some, Vector.toList_inj.mp (hexEncode_inj h)]

/-- What a refspec that is to be pushed adds to the delta. -/
theorem pushSpec_push (acc : PushAcc) (hspec : parsePushSpec spec = .ok (force, src, dst))
    (hsrc : src.isEmpty = false) (hdst : (utf8 dst).length ≤ limits.maxRefNameBytes)
    (hnew : (state.refs[dst]?).map (·.target) ≠ some (sha n)) :
    pushSpec signerCrypto params signerKey (signerHost n k) pushEnv state acc spec =
      .ok (acc.publish dst
        ⟨sha n, seenSeq state dst + 1, owner, 0,
          signatureOf (.ref dst (sha n) (seenSeq state dst + 1) 0)⟩
        (bundleId k) ⟨bundleOf k, owner, 0, signatureOf (.bundle (bundleOf k) 0)⟩
        ⟨(sha n).toList, 1,
          signatureOf (.extension (bundleTipExtensionKey (bundleId k)) (sha n).toList 1)⟩) :=
  pushSpec_publish acc hspec hsrc rfl (not_upToDate hnew) buildPack_eq publish_pack signBundle_eq
    (signRef_eq hdst) signExtension_eq

/-- The delta of a push with one refspec. -/
theorem buildDelta_push (hspec : parsePushSpec spec = .ok (force, src, dst))
    (hsrc : src.isEmpty = false) (hdst : (utf8 dst).length ≤ limits.maxRefNameBytes)
    (hnew : (state.refs[dst]?).map (·.target) ≠ some (sha n)) :
    buildDelta signerCrypto params signerKey (signerHost n k) pushEnv state [spec] =
      .ok ⟨pushDelta dst n k (seenSeq state dst + 1), ["ok " ++ dst], []⟩ :=
  buildDelta_one hspec hsrc rfl (not_upToDate hnew) buildPack_eq publish_pack signBundle_eq
    (signRef_eq hdst) signExtension_eq rfl

/-- A push with one refspec is sent, and publishes its pack. -/
theorem push_sent (hspec : parsePushSpec spec = .ok (force, src, dst))
    (hsrc : src.isEmpty = false) (hdst : (utf8 dst).length ≤ limits.maxRefNameBytes)
    (hnew : (state.refs[dst]?).map (·.target) ≠ some (sha n))
    (hstate : Accepted signerCrypto params state) (howner : state.owner = owner) :
    handlePush signerCrypto params signerKey (signerHost n k) pushEnv state [spec] =
      .ok (some (pushDelta dst n k (seenSeq state dst + 1)),
        ⟨pushDelta dst n k (seenSeq state dst + 1), ["ok " ++ dst], []⟩) :=
  handlePush_of_updateState (buildDelta_push hspec hsrc hdst hnew) (getElem?_insert_eq.trans (if_pos rfl))
    (updateState_pushDelta hstate howner hdst)

/-- One refspec, that publishes the commit `n` in the pack `k`. -/
def onePush (spec : String) (n k : UInt8) : PushCall := ⟨signerHost n k, pushEnv, [spec]⟩

theorem push_publications (hspec : parsePushSpec spec = .ok (force, src, dst))
    (hsrc : src.isEmpty = false) (hdst : (utf8 dst).length ≤ limits.maxRefNameBytes)
    (hnew : (state.refs[dst]?).map (·.target) ≠ some (sha n))
    (hstate : Accepted signerCrypto params state) (howner : state.owner = owner) :
    (onePush spec n k).publications signerCrypto params signerKey state =
      [⟨sha n, (state.refs[dst]?).map (·.target), packOf k, bundleOf k⟩] := by
  have hhave : ∀ prev, effectiveHave (signerHost n k) prev = prev := fun prev => by
    cases prev <;> rfl
  have hsent : handlePush signerCrypto params signerKey (onePush spec n k).host (onePush spec n k).env
      state (onePush spec n k).pushes = .ok (some (pushDelta dst n k (seenSeq state dst + 1)), _) :=
    push_sent hspec hsrc hdst hnew hstate howner
  rw [PushCall.publications_sent hsent]
  have hresolve : (signerHost n k).resolveRef src = .ok (hexEncode (sha n).toList) := rfl
  have hpub : publication signerCrypto (signerHost n k) pushEnv state spec =
      some ⟨sha n, (state.refs[dst]?).map (·.target), packOf k, bundleOf k⟩ := by
    rw [publication, hspec]
    dsimp only
    rw [publicationOf, hsrc, hhave, hresolve]
    simp only [Bool.false_eq_true, if_false, not_upToDate hnew, buildPack_eq, publish_pack,
      parseSha1_hexEncode]
  change [spec].filterMap (publication signerCrypto (signerHost n k) pushEnv state) = _
  rw [List.filterMap_cons_some hpub, List.filterMap_nil]

/-- After the push the ref is what was pushed, under the next number. -/
theorem pushed_main (hmax : (seenSeq state dst).toNat + 1 < 2 ^ 64) :
    (mergeState state (pushDelta dst n k (seenSeq state dst + 1))).refs[dst]? =
      some ⟨sha n, seenSeq state dst + 1, owner, 0,
        signatureOf (.ref dst (sha n) (seenSeq state dst + 1) 0)⟩ :=
  mergeState_next (getElem?_insert_eq.trans (if_pos rfl)) rfl hmax

/-- A push leaves the other refs as they are. -/
theorem pushed_other {dst' : RefName} (h : dst ≠ dst') :
    (mergeState state (pushDelta dst n k seq)).refs[dst']? = state.refs[dst']? := by
  have hnone : (pushDelta dst n k seq).at (.ref dst') = none := by
    refine getElem?_insert_eq.trans ?_
    rw [if_neg h, Std.ExtTreeMap.getElem?_empty]
  refine (mergeState_at state (pushDelta dst n k seq) (.ref dst')).trans ?_
  rw [hnone, Picker.pickOpt_none_right]
  rfl

theorem seenSeq_pushed (hmax : (seenSeq state dst).toNat + 1 < 2 ^ 64) :
    seenSeq (mergeState state (pushDelta dst n k (seenSeq state dst + 1))) dst =
      seenSeq state dst + 1 := by
  rw [seenSeq, pushed_main hmax]
  rfl

/-- The tip that the push of the commit `n` in the pack `k` signs. -/
def tipEntry (n k : UInt8) : ExtensionEntry :=
  ⟨(sha n).toList, 1, signatureOf (.extension (bundleTipExtensionKey (bundleId k)) (sha n).toList 1)⟩

/-- Of the tips, a push touches that of its own bundle. -/
theorem pushDelta_tip (id : ObjectBundleId) :
    (pushDelta dst n k seq).at (.extension (bundleTipExtensionKey id)) =
      if bundleId k = id then some (tipEntry n k) else none := by
  refine getElem?_insert_eq.trans ?_
  rw [Std.ExtTreeMap.getElem?_empty]
  exact if_congr ⟨bundleTipExtensionKey_inj, congrArg _⟩ rfl rfl

theorem pushed_tip : (mergeState state (pushDelta dst n k seq)).at
      (.extension (bundleTipExtensionKey (bundleId k))) =
    (Slot.extension _).picker.pickOpt (state.at (.extension (bundleTipExtensionKey (bundleId k))))
      (some (tipEntry n k)) := by
  rw [mergeState_at, pushDelta_tip, if_pos rfl]

/-- The state after the push is again an accepted state of the owner. -/
theorem push_accepted (hdst : (utf8 dst).length ≤ limits.maxRefNameBytes)
    (hstate : Accepted signerCrypto params state) (howner : state.owner = owner) :
    Accepted signerCrypto params (mergeState state (pushDelta dst n k seq)) :=
  (updateState_eq_ok.mp (updateState_pushDelta hstate howner hdst)).2

end

end Sample

end FreenetGit
