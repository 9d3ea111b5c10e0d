/-
# `FreenetGit.PushEffect` — what one push changes

The entries of a delta are read off the state of the contract: a ref has the next
number, a tip the number 1, the mirror mode the next number (`BuiltFor`).  So they
take their places in the merge, and what they take the place of is all that
changes (`PushEffect`).
-/
import FreenetGit.PushFetch

namespace FreenetGit

open Lib

variable {cr : Crypto} {params : RepoParams} {key : SigningKey} {host : PushHost} {env : PushEnv}
  {state : RepoState} {acc acc' : PushAcc} {pushes : List String}

/-! ## The entries of a delta -/

/-- The entries of a delta, and what they are signed for. -/
structure BuiltFor (cr : Crypto) (params : RepoParams) (key : SigningKey) (state delta : RepoState) :
    Prop where
  rest : delta = { RepoState.default with
    refs := delta.refs, objectIndex := delta.objectIndex, extensions := delta.extensions }
  ref : ∀ (n : RefName) (e : RefEntry), delta.refs[n]? = some e →
    (utf8 n).length ≤ limits.maxRefNameBytes ∧
      ∃ target, signRefEntry cr params key n target (seenSeq state n + 1) 0 = some e
  record : ∀ (id : ObjectBundleId) (r : ObjectBundleRecord), delta.objectIndex[id]? = some r →
    ∃ bundle, bundle.id cr = id ∧ signBundleRecord cr params key bundle 0 = some r
  extension : ∀ (k : String) (e : ExtensionEntry), delta.extensions[k]? = some e →
    (∃ id target, k = bundleTipExtensionKey id ∧
      signBundleTipExtension cr params key id target bundleTipUpdateSeq = some (k, e)) ∨
    (k = mirrorModeExtensionKey ∧ ∃ mode, (mode = "snapshot" ∨ mode = "history") ∧
      signExtension cr params key k (utf8 mode) (seenModeSeq state + 1) = some e)

theorem BuiltFor.default : BuiltFor cr params key state RepoState.default where
  rest := rfl
  ref _ _ he := nomatch Std.ExtTreeMap.getElem?_empty.symm.trans he
  record _ _ hr := nomatch Std.ExtTreeMap.getElem?_empty.symm.trans hr
  extension _ _ he := nomatch Std.ExtTreeMap.getElem?_empty.symm.trans he

theorem BuiltFor.adds {dst : RefName} {target : CommitHash} {bundle : ObjectBundle}
    (h : BuiltFor cr params key state acc.delta)
    (hdst : (utf8 dst).length ≤ limits.maxRefNameBytes)
    (ha : AddsEntries cr params key state dst target bundle acc acc') :
    BuiltFor cr params key state acc'.delta where
  rest := by
    rw [ha.rest_eq, h.rest]
  ref n e he := by
    rw [ha.refs_eq, getElem?_insert_eq] at he
    split at he
    · next heq =>
        cases he
        exact heq ▸ ⟨hdst, target, ha.entry_eq⟩
    · exact h.ref n e he
  record id r hr := by
    rw [ha.objectIndex_eq, getElem?_insert_eq] at hr
    split at hr
    · next heq =>
        cases hr
        exact ⟨bundle, heq, ha.record_eq⟩
    · exact h.record id r hr
  extension k e he := by
    rw [ha.extensions_eq, getElem?_insert_eq] at he
    split at he
    · next heq =>
        cases he
        refine .inl ⟨bundle.id cr, target, heq.symm, ?_⟩
        rw [signBundleTipExtension, ha.tip_eq, ← heq]
        rfl
    · exact h.extension k e he

theorem BuiltFor.mode (h : BuiltFor cr params key state acc.delta)
    (hw : WritesMode cr params key env state acc acc') :
    BuiltFor cr params key state acc'.delta := by
  rw [hw.acc_eq]
  refine ⟨?_, h.ref, h.record, fun k e he => ?_⟩
  · dsimp only
    rw [h.rest]
  · rw [getElem?_insert_eq] at he
    split at he
    · next heq =>
        cases he
        exact .inr ⟨heq.symm, hw.mode, hw.known, heq ▸ hw.entry_eq⟩
    · exact h.extension k e he

/-- The destination of a refspec. -/
def pushDst (spec : String) : Option RefName := (parsePushSpec spec).toOption.map (·.2.2)

/-- Every name that is pushed to is within the limit. -/
def NamesFit (pushes : List String) : Prop :=
  ∀ spec ∈ pushes, ∀ dst, pushDst spec = some dst → (utf8 dst).length ≤ limits.maxRefNameBytes

theorem pushDst_eq {spec src dst : String} {force : Bool}
    (h : parsePushSpec spec = .ok (force, src, dst)) : pushDst spec = some dst := by
  rw [pushDst, h]
  rfl

theorem buildDelta_builtFor (hlen : NamesFit pushes)
    (h : buildDelta cr params key host env state pushes = .ok acc) :
    BuiltFor cr params key state acc.delta := by
  refine buildDelta_induction (fun acc => BuiltFor cr params key state acc.delta) .default ?_ ?_ h
  · intro spec hspec acc acc' hacc hs
    rcases pushSpec_eq_ok hs with ⟨hd, -⟩ | ⟨⟨u⟩⟩ | ⟨⟨p⟩⟩
    · exact hd ▸ hacc
    · exact u.delta_eq ▸ hacc
    · exact hacc.adds (hlen spec hspec _ (pushDst_eq p.spec_eq)) p.adds
  · intro acc acc' hacc hm
    rcases pushMirrorMode_eq_ok hm with ⟨rfl, -⟩ | ⟨⟨w⟩⟩
    · exact hacc
    · exact hacc.mode w

/-- A delta under its owner's name was made by the signer. -/
theorem BuiltFor.made {delta : RepoState} (h : BuiltFor cr params key state delta) :
    MadeBySigner cr params key { delta with owner := key.verifyingKey } := by
  have hnone : ∀ {T : Type} {x : Option T} {f : T}, x = none → x ≠ some f := fun hx hf =>
    nomatch hx.symm.trans hf
  refine ⟨rfl, fun f hf => ?_, fun f hf => ?_, fun f hf => ?_, fun f hf => ?_, fun f hf => ?_,
    fun f hf => ?_, fun n e he => ?_, fun id r hr => ?_, fun k e he => ?_⟩
  · exact absurd hf (hnone (congrArg RepoState.name h.rest))
  · exact absurd hf (hnone (congrArg RepoState.description h.rest))
  · exact absurd hf (hnone (congrArg RepoState.defaultBranch h.rest))
  · exact absurd hf (hnone (congrArg RepoState.forcePushAllowed h.rest))
  · exact absurd hf (hnone (congrArg RepoState.acl h.rest))
  · exact absurd hf (hnone (congrArg RepoState.upgrade h.rest))
  · obtain ⟨hlen, target, he⟩ := h.ref n e he
    exact ⟨hlen, target, _, _, he⟩
  · obtain ⟨bundle, hid, hr⟩ := h.record id r hr
    exact ⟨bundle, 0, hid, hr⟩
  · rcases h.extension k e he with ⟨id, target, -, he⟩ | ⟨rfl, mode, hmode, he⟩
    · exact .inr ⟨id, target, _, he⟩
    · refine .inl ⟨utf8 mode, _, by decide, ?_, he⟩
      rcases hmode with rfl | rfl <;> decide

/-- **A delta of the owner is accepted.** -/
theorem BuiltFor.accepted {delta : RepoState} (h : BuiltFor cr params key state delta)
    (hstate : Accepted cr params state) (howner : key.verifyingKey = state.owner)
    (hkey : ∀ p, cr.verify key.verifyingKey p (key.sign p) = true) :
    updateState cr params state delta = .ok (mergeState state delta) :=
  updateState_kept hstate (h.made.accepted hkey (howner ▸ hstate.prefixOk)) howner.symm
    ⟨fun σ _ he => by cases σ <;> exact he, fun _ _ hr => hr⟩

/-! ## What takes its place -/

/-- The numbers of a state are below the last one. -/
def BelowLast (s : RepoState) : Prop :=
  ∀ (σ : Slot) (e : σ.Entry), s.at σ = some e → (σ.updateSeq e).toNat + 1 < 2 ^ 64

theorem BelowLast.seenSeq (h : BelowLast state) (dst : RefName) :
    (seenSeq state dst).toNat + 1 < 2 ^ 64 := by
  rw [FreenetGit.seenSeq]
  cases he : state.refs[dst]? with
  | none => decide
  | some e => exact h (.ref dst) e he

theorem BelowLast.seenModeSeq (h : BelowLast state) : (seenModeSeq state).toNat + 1 < 2 ^ 64 := by
  rw [FreenetGit.seenModeSeq]
  cases he : state.extensions[mirrorModeExtensionKey]? with
  | none => decide
  | some e => exact h (.extension mirrorModeExtensionKey) e he

theorem one_le_next {seq : UInt64} (h : seq.toNat + 1 < 2 ^ 64) : 1 ≤ seq + 1 := by
  rw [UInt64.le_iff_toNat_le, UInt64.toNat_add, UInt64.toNat_one, Nat.mod_eq_of_lt h]
  exact Nat.le_add_left _ _

/-- A signed ref is what was signed. -/
theorem signRefEntry_eq {n : RefName} {target : CommitHash} {seq ep : UInt64} {e : RefEntry}
    (h : signRefEntry cr params key n target seq ep = some e) :
    e.target = target ∧ e.updateSeq = seq := by
  obtain ⟨sig, -, rfl⟩ := Option.map_eq_some_iff.mp h
  exact ⟨rfl, rfl⟩

theorem signExtension_eq {k : String} {value : Bytes} {seq : UInt64} {e : ExtensionEntry}
    (h : signExtension cr params key k value seq = some e) : e.value = value ∧ e.updateSeq = seq := by
  obtain ⟨sig, -, rfl⟩ := Option.map_eq_some_iff.mp h
  exact ⟨rfl, rfl⟩

section

variable {delta : RepoState}

/-- Every ref of a delta takes its place. -/
theorem BuiltFor.merge_ref (h : BuiltFor cr params key state delta) (hbelow : BelowLast state)
    {n : RefName} {e : RefEntry} (he : delta.refs[n]? = some e) :
    (mergeState state delta).refs[n]? = some e := by
  obtain ⟨-, target, hsigned⟩ := h.ref n e he
  exact mergeState_next he (signRefEntry_eq hsigned).2 (hbelow.seenSeq n)

/-- The delta rule of the deployed contract: a peer that does not have an entry is taken
to have it under the number 0. -/
def deployedPeerNeeds (peerSeq : Option UInt64) (entrySeq : UInt64) : Bool :=
  peerSeq.getD 0 < entrySeq

theorem deployedPeerNeeds_none {seq : UInt64} (h : 1 ≤ seq) : deployedPeerNeeds none seq = true :=
  decide_eq_true (UInt64.lt_of_lt_of_le (by decide) h)

theorem BuiltFor.one_le_ref (h : BuiltFor cr params key state delta) (hbelow : BelowLast state)
    {n : RefName} {e : RefEntry} (he : delta.refs[n]? = some e) : 1 ≤ e.updateSeq := by
  obtain ⟨-, target, hsigned⟩ := h.ref n e he
  rw [(signRefEntry_eq hsigned).2]
  exact one_le_next (hbelow.seenSeq n)

theorem BuiltFor.one_le_extension (h : BuiltFor cr params key state delta)
    (hbelow : BelowLast state) {k : String} {e : ExtensionEntry}
    (he : delta.extensions[k]? = some e) : 1 ≤ e.updateSeq := by
  rcases h.extension k e he with ⟨id, target, -, hsigned⟩ | ⟨-, mode, -, hsigned⟩
  · obtain ⟨e', hsigned, heq⟩ := Option.map_eq_some_iff.mp hsigned
    cases heq
    rw [(signExtension_eq hsigned).2]
    decide
  · rw [(signExtension_eq hsigned).2]
    exact one_le_next hbelow.seenModeSeq

end

/-! ## The report -/

/-- A line of the report is about a refspec whose target the ref has: by the delta if
there is an entry, else already. -/
def ReportedFor (host : PushHost) (state : RepoState) (pushes : List String) (delta : RepoState)
    (line : String) : Prop :=
  ∃ spec ∈ pushes, ∃ force src dst newTarget target,
    parsePushSpec spec = .ok (force, src, dst) ∧ line = "ok " ++ dst ∧
    host.resolveRef src = .ok newTarget ∧ parseSha1 newTarget = .ok target ∧
    (∀ e, delta.refs[dst]? = some e → e.target = target) ∧
    (delta.refs[dst]? = none → ∃ e, state.refs[dst]? = some e ∧ e.target = target)

/-- No destination is pushed to twice. -/
def DistinctDsts (pushes : List String) : Prop := (pushes.filterMap pushDst).Nodup

/-- The refspec of a destination. -/
theorem DistinctDsts.eq_of_dst (h : DistinctDsts pushes) {spec spec' : String} {dst : RefName}
    (hspec : spec ∈ pushes) (hspec' : spec' ∈ pushes) (hd : pushDst spec = some dst)
    (hd' : pushDst spec' = some dst) : spec = spec' := by
  let differ (a a' : String) : Prop :=
    ∀ b, pushDst a = some b → ∀ b', pushDst a' = some b' → b ≠ b'
  have hsymm : Std.Symm differ := ⟨fun _ _ hR b hb b' hb' => (hR b' hb' b hb).symm⟩
  have hpair : pushes.Pairwise differ := List.pairwise_filterMap.mp h
  by_contra hne
  exact hpair.forall hspec hspec' hne dst hd dst hd' rfl

/-- A pushed refspec leaves the lines of the others as they are. -/
theorem ReportedFor.adds (hdistinct : DistinctDsts pushes) {spec line : String}
    (hspec : spec ∈ pushes) (h : ReportedFor host state pushes acc.delta line)
    (hp : Pushes cr params key host env state spec acc acc') :
    ReportedFor host state pushes acc'.delta line := by
  obtain ⟨spec₀, hspec₀, force, src, dst, newTarget, target, hparse, hline, hres, ht, hsome, hnone⟩ := h
  refine ⟨spec₀, hspec₀, force, src, dst, newTarget, target, hparse, hline, hres, ht, fun e he => ?_,
    fun he => ?_⟩
  · rw [hp.adds.refs_eq, getElem?_insert_eq] at he
    split at he
    · next heq =>
        -- the refspec of the line again, so that its target is the same
        cases he
        obtain rfl := hdistinct.eq_of_dst hspec hspec₀ (pushDst_eq hp.spec_eq)
          ((pushDst_eq hparse).trans (congrArg some heq.symm))
        cases hp.spec_eq.symm.trans hparse
        cases hp.resolve_eq.symm.trans hres
        cases hp.target_eq.symm.trans ht
        exact (signRefEntry_eq hp.adds.entry_eq).1
    · exact hsome e he
  · rw [hp.adds.refs_eq, getElem?_insert_eq] at he
    split at he
    · cases he
    · exact hnone he

/-- The line of a pushed refspec. -/
theorem Pushes.reported {spec : String} (hspec : spec ∈ pushes)
    (hp : Pushes cr params key host env state spec acc acc') :
    ReportedFor host state pushes acc'.delta ("ok " ++ hp.dst) := by
  have hentry : acc'.delta.refs[hp.dst]? = some hp.adds.entry := by
    rw [hp.adds.refs_eq, getElem?_insert_eq, if_pos rfl]
  refine ⟨spec, hspec, _, _, _, _, hp.target, hp.spec_eq, rfl, hp.resolve_eq, hp.target_eq,
    fun e he => ?_, fun he => nomatch hentry.symm.trans he⟩
  cases hentry.symm.trans he
  exact (signRefEntry_eq hp.adds.entry_eq).1

/-- The line of a refspec that is up to date.  If its destination had an entry in the
delta, this would be by the same refspec. -/
theorem UpToDate.reported {spec : String} (hspec : spec ∈ pushes) (hdistinct : DistinctDsts pushes)
    (hreports : ReportsRefs acc) (hacc : ∀ line ∈ acc.okLines, ReportedFor host state pushes acc.delta line)
    (hu : UpToDate host state spec acc acc') :
    ReportedFor host state pushes acc.delta ("ok " ++ hu.dst) := by
  refine ⟨spec, hspec, _, _, _, _, hu.cur.target, hu.spec_eq, rfl, hu.resolve_eq,
    parseSha1_hexEncode _, fun e he => ?_, fun _ => ⟨hu.cur, hu.ref_eq, rfl⟩⟩
  obtain ⟨spec₀, hspec₀, force, src, dst, newTarget, target, hparse, hline, hres, ht, hsome, -⟩ :=
    hacc _ (hreports _ e he)
  have hdst : hu.dst = dst := by simpa using hline
  obtain rfl := hdistinct.eq_of_dst hspec hspec₀ (pushDst_eq hu.spec_eq)
    ((pushDst_eq hparse).trans (congrArg some hdst.symm))
  cases hu.spec_eq.symm.trans hparse
  cases hu.resolve_eq.symm.trans hres
  rw [parseSha1_hexEncode] at ht
  cases ht
  exact hsome e he

/-- **Every line of the report** is about a refspec whose target the ref has. -/
theorem buildDelta_reported (hdistinct : DistinctDsts pushes)
    (h : buildDelta cr params key host env state pushes = .ok acc) :
    ∀ line ∈ acc.okLines, ReportedFor host state pushes acc.delta line := by
  refine (buildDelta_induction (fun acc => ReportsRefs acc ∧
    ∀ line ∈ acc.okLines, ReportedFor host state pushes acc.delta line)
    ⟨.empty, fun _ hline => nomatch hline⟩ ?_ ?_ h).2
  · rintro spec hspec acc acc' ⟨hreports, hacc⟩ hs
    refine ⟨hreports.spec hs, ?_⟩
    rcases pushSpec_eq_ok hs with ⟨hd, hl⟩ | ⟨⟨u⟩⟩ | ⟨⟨p⟩⟩
    · rw [hd, hl]
      exact hacc
    · rw [u.delta_eq, u.okLines_eq]
      intro line hline
      rcases List.mem_append.mp hline with hline | hline
      · exact hacc line hline
      · rw [List.mem_singleton.mp hline]
        exact u.reported hspec hdistinct hreports hacc
    · rw [p.adds.okLines_eq]
      intro line hline
      rcases List.mem_append.mp hline with hline | hline
      · exact (hacc line hline).adds hdistinct hspec p
      · rw [List.mem_singleton.mp hline]
        exact p.reported hspec
  · rintro acc acc' ⟨hreports, hacc⟩ hm
    refine ⟨hreports.mode hm, ?_⟩
    rcases pushMirrorMode_eq_ok hm with ⟨rfl, -⟩ | ⟨⟨w⟩⟩
    · exact hacc
    · rw [w.acc_eq]
      exact hacc

/-! ## The mirror mode -/

/-- The refspecs do not touch the mirror mode. -/
theorem pushSpecs_mode (h : pushes.foldlM (pushSpec cr params key host env state)
      ⟨RepoState.default, [], []⟩ = .ok acc) :
    acc.delta.extensions[mirrorModeExtensionKey]? = none := by
  refine pushSpecs_induction (fun acc => acc.delta.extensions[mirrorModeExtensionKey]? = none) ?_
    Std.ExtTreeMap.getElem?_empty h
  intro spec _ acc acc' hacc hs
  rcases pushSpec_eq_ok hs with ⟨hd, -⟩ | ⟨⟨u⟩⟩ | ⟨⟨p⟩⟩
  · exact hd ▸ hacc
  · exact u.delta_eq ▸ hacc
  · rw [p.adds.extensions_eq, getElem?_insert_eq, if_neg, hacc]
    intro hk
    have hparse := parseBundleTipExtensionKey_key (p.bundle.id cr)
    rw [hk, parse_mirrorMode] at hparse
    cases hparse

/-- The mode that is asked for is written under the next number, or is there. -/
theorem buildDelta_mode {mode : String}
    (h : buildDelta cr params key host env state pushes = .ok acc)
    (hmode : env.mirrorMode = some mode) (hne : mode ≠ "") :
    (∃ e, acc.delta.extensions[mirrorModeExtensionKey]? = some e ∧ e.value = utf8 mode ∧
      e.updateSeq = seenModeSeq state + 1) ∨
    (acc.delta.extensions[mirrorModeExtensionKey]? = none ∧
      (state.extensions[mirrorModeExtensionKey]?).map (·.value) = some (utf8 mode)) := by
  obtain ⟨acc₁, hspecs, hm⟩ := bind_eq_ok.mp h
  rcases pushMirrorMode_eq_ok hm with ⟨rfl, hsame⟩ | ⟨⟨w⟩⟩
  · exact .inr ⟨pushSpecs_mode hspecs, hsame mode hmode hne⟩
  · obtain rfl : w.mode = mode := Option.some.inj (w.mode_eq.symm.trans hmode)
    obtain ⟨hvalue, hseq⟩ := signExtension_eq w.entry_eq
    refine .inl ⟨w.entry, ?_, hvalue, hseq⟩
    have hext := congrArg (fun a : PushAcc => a.delta.extensions) w.acc_eq
    exact hext ▸ getElem?_insert_eq.trans (if_pos rfl)

/-- The mirror mode with the next number takes its place. -/
theorem mergeState_nextMode {delta : RepoState} {e : ExtensionEntry}
    (he : delta.extensions[mirrorModeExtensionKey]? = some e)
    (hseq : e.updateSeq = seenModeSeq state + 1) (hmax : (seenModeSeq state).toNat + 1 < 2 ^ 64) :
    (mergeState state delta).extensions[mirrorModeExtensionKey]? = some e := by
  refine mergeState_higher (σ := .extension mirrorModeExtensionKey) he fun cur hcur => ?_
  have hseen : seenModeSeq state = cur.updateSeq := by
    rw [seenModeSeq, show state.extensions[mirrorModeExtensionKey]? = some cur from hcur]
    rfl
  change cur.updateSeq < e.updateSeq
  rw [hseq, ← hseen]
  exact lt_next hmax

/-! ## The effect -/

/-- What a push leaves in the contract that had the state `state`: what it reports and
publishes is there, and nothing else is changed. -/
structure PushEffect (cr : Crypto) (host : PushHost) (env : PushEnv) (state : RepoState)
    (pushes : List String) (acc : PushAcc) (result : RepoState) : Prop where
  reported : ∀ line ∈ acc.okLines, ∃ spec ∈ pushes, ∃ force src dst newTarget e,
    parsePushSpec spec = .ok (force, src, dst) ∧ line = "ok " ++ dst ∧
    host.resolveRef src = .ok newTarget ∧ result.refs[dst]? = some e ∧
    parseSha1 newTarget = .ok e.target
  otherRefs : ∀ n : RefName, "ok " ++ n ∉ acc.okLines → result.refs[n]? = state.refs[n]?
  published : ∀ p ∈ pushes.filterMap (publication cr host env state), ∃ r,
    result.objectIndex[p.bundle.id cr]? = some r ∧ r.bundle.id cr = p.bundle.id cr ∧
    (({r.bundle.encoding, p.bundle.encoding} : Set Bytes).InjOn cr.blake3 → r.bundle = p.bundle)
  records : ∀ (id : ObjectBundleId) (r : ObjectBundleRecord), state.objectIndex[id]? = some r →
    result.objectIndex[id]? = some r
  fields : result.owner = state.owner ∧ result.name = state.name ∧
    result.description = state.description ∧ result.defaultBranch = state.defaultBranch ∧
    result.forcePushAllowed = state.forcePushAllowed ∧ result.acl = state.acl ∧
    result.upgrade = state.upgrade
  extensions : ∀ k : String, acc.delta.extensions[k]? = none →
    result.extensions[k]? = state.extensions[k]?
  mirrorMode : ∀ mode, env.mirrorMode = some mode → mode ≠ "" →
    (result.extensions[mirrorModeExtensionKey]?).map (·.value) = some (utf8 mode)
  refsDeliverable : ∀ (n : RefName) (e : RefEntry), acc.delta.refs[n]? = some e →
    1 ≤ e.updateSeq ∧ deployedPeerNeeds none e.updateSeq = true
  extensionsDeliverable : ∀ (k : String) (e : ExtensionEntry), acc.delta.extensions[k]? = some e →
    1 ≤ e.updateSeq ∧ deployedPeerNeeds none e.updateSeq = true

/-- Where the delta has nothing, a merge changes nothing. -/
theorem mergeState_at_none {s d : RepoState} {σ : Slot} (h : d.at σ = none) :
    (mergeState s d).at σ = s.at σ := by
  rw [mergeState_at, h, Picker.pickOpt_none_right]

/-- **A push takes effect, and nothing else changes.** -/
theorem push_effect (hstate : validateState cr params state = .ok ()) (hbelow : BelowLast state)
    (howner : key.verifyingKey = state.owner)
    (hkey : ∀ p, cr.verify key.verifyingKey p (key.sign p) = true)
    (hdistinct : DistinctDsts pushes) (hlen : NamesFit pushes)
    (h : buildDelta cr params key host env state pushes = .ok acc) :
    ∃ result, updateState cr params state acc.delta = .ok result ∧
      PushEffect cr host env state pushes acc result := by
  rw [validateState_eq_ok] at hstate
  have hbuilt := buildDelta_builtFor hlen h
  have hupdate := hbuilt.accepted hstate howner hkey
  have haccepted := (updateState_eq_ok.mp hupdate).2
  have hnone : ∀ σ : Slot, acc.delta.at σ = none →
      (mergeState state acc.delta).at σ = state.at σ := fun σ => mergeState_at_none
  have hrest := hbuilt.rest
  refine ⟨_, hupdate, ?_⟩
  refine {
    reported := ?_
    otherRefs := fun n hn => hnone (.ref n) ?_
    published := ?_
    records := fun id r hr => by rw [mergeState_objectIndex, hr, Option.some_or]
    fields := ⟨rfl, hnone .name (congrArg RepoState.name hrest),
      hnone .description (congrArg RepoState.description hrest),
      hnone .defaultBranch (congrArg RepoState.defaultBranch hrest),
      hnone .forcePushAllowed (congrArg RepoState.forcePushAllowed hrest),
      hnone .acl (congrArg RepoState.acl hrest), hnone .upgrade (congrArg RepoState.upgrade hrest)⟩
    extensions := fun k => hnone (.extension k)
    mirrorMode := ?_
    refsDeliverable := fun n e he =>
      ⟨hbuilt.one_le_ref hbelow he, deployedPeerNeeds_none (hbuilt.one_le_ref hbelow he)⟩
    extensionsDeliverable := fun k e he =>
      ⟨hbuilt.one_le_extension hbelow he, deployedPeerNeeds_none (hbuilt.one_le_extension hbelow he)⟩ }
  · intro line hline
    obtain ⟨spec, hspec, force, src, dst, newTarget, target, hparse, hdst, hres, ht, hsome, hnew⟩ :=
      buildDelta_reported hdistinct h line hline
    cases he : acc.delta.refs[dst]? with
    | some e =>
        exact ⟨spec, hspec, force, src, dst, newTarget, e, hparse, hdst, hres,
          hbuilt.merge_ref hbelow he, (hsome e he).symm ▸ ht⟩
    | none =>
        obtain ⟨e, hcur, htarget⟩ := hnew he
        exact ⟨spec, hspec, force, src, dst, newTarget, e, hparse, hdst, hres,
          (hnone (.ref dst) he).trans hcur, htarget.symm ▸ ht⟩
  · by_contra hsome
    obtain ⟨e, he⟩ := Option.ne_none_iff_exists'.mp hsome
    exact hn (buildDelta_okLines h n e he)
  · intro p hp
    obtain ⟨r, hr⟩ : ∃ r, (mergeState state acc.delta).objectIndex[p.bundle.id cr]? = some r := by
      obtain ⟨r, hr⟩ := (buildDelta_advertises h).indexed p hp
      rw [mergeState_objectIndex, hr]
      cases state.objectIndex[p.bundle.id cr]? with
      | none => exact ⟨r, rfl⟩
      | some cur => exact ⟨cur, rfl⟩
    have hid := (haccepted.bundleOk _ r hr).1
    exact ⟨r, hr, hid, fun hcr => ObjectBundle.id_inj hcr (.inl rfl) (.inr rfl) hid⟩
  · intro mode hmode hne
    rcases buildDelta_mode h hmode hne with ⟨e, he, hvalue, hseq⟩ | ⟨he, hsame⟩
    · exact (congrArg _ (mergeState_nextMode he hseq hbelow.seenModeSeq)).trans
        (congrArg some hvalue)
    · exact (congrArg _ (hnone (.extension mirrorModeExtensionKey) he)).trans hsame

/-! A push with two refspecs: the branch is moved back, and another one is new. -/

theorem BelowLast.merge {s t : RepoState} (hs : BelowLast s) (ht : BelowLast t) :
    BelowLast (mergeState s t) := by
  intro σ e he
  rw [mergeState_at] at he
  exact (σ.picker.pickOpt_eq_some he).elim (hs σ e) (ht σ e)

namespace Sample

theorem created_belowLast : BelowLast created := by
  intro σ e he
  cases σ with
  | name | description | defaultBranch | forcePushAllowed | acl | upgrade =>
      simp only [RepoState.at, created, signStringField, signRefListField, signAclField,
        signOptionalRepoKeyField, Option.map_eq_some_iff] at he
      obtain ⟨sig, -, rfl⟩ := he
      exact (by decide : (1 : UInt64).toNat + 1 < 2 ^ 64)
  | ref n | extension n => cases Std.ExtTreeMap.getElem?_empty.symm.trans he

theorem pushDelta_belowLast {dst : RefName} {n k : UInt8} {seq : UInt64}
    (h : seq.toNat + 1 < 2 ^ 64) : BelowLast (pushDelta dst n k seq) := by
  intro σ e he
  cases σ with
  | name | description | defaultBranch | forcePushAllowed | acl | upgrade => cases he
  | ref m =>
      obtain ⟨-, rfl⟩ := single_eq he
      exact h
  | extension m =>
      obtain ⟨-, rfl⟩ := single_eq he
      exact (by decide : (1 : UInt64).toNat + 1 < 2 ^ 64)

theorem paired_belowLast : BelowLast paired := by
  refine created_belowLast.merge (pushDelta_belowLast ?_)
  rw [created_seq]
  decide

def twoSpecs : List String := ["+refs/heads/main:refs/heads/main", "refs/heads/dev:refs/heads/dev"]

theorem twoSpecs_dsts : twoSpecs.filterMap pushDst = [main, dev] := by
  rw [twoSpecs, List.filterMap_cons_some (pushDst_eq pushBack_spec),
    List.filterMap_cons_some (pushDst_eq dev_spec), List.filterMap_nil]

theorem twoSpecs_distinct : DistinctDsts twoSpecs := by
  rw [DistinctDsts, twoSpecs_dsts]
  decide

theorem twoSpecs_namesFit : NamesFit twoSpecs := by
  intro spec hspec dst hd
  have hmem : dst ∈ twoSpecs.filterMap pushDst := List.mem_filterMap.mpr ⟨spec, hspec, hd⟩
  rw [twoSpecs_dsts] at hmem
  simp only [List.mem_cons, List.not_mem_nil, or_false] at hmem
  rcases hmem with rfl | rfl
  · decide
  · decide

/-- Both refspecs are reported. -/
theorem twoSpecs_delta : ∃ acc,
    buildDelta signerCrypto Sample.params signerKey (signerHost 1 1) pushEnv paired twoSpecs = .ok acc ∧
      acc.okLines = ["ok " ++ main, "ok " ++ dev] := by
  have hmain := pushSpec_push (k := 1) ⟨RepoState.default, [], []⟩ pushBack_spec rfl (by decide)
    (by rw [paired_main]; decide : (paired.refs[main]?).map (·.target) ≠ some (sha 1))
  have hdev := fun acc => pushSpec_push (k := 1) acc dev_spec rfl (by decide)
    (by rw [paired_dev]; nofun : (paired.refs[dev]?).map (·.target) ≠ some (sha 1))
  have hfold : ∃ acc, twoSpecs.foldlM
      (pushSpec signerCrypto Sample.params signerKey (signerHost 1 1) pushEnv paired)
      ⟨RepoState.default, [], []⟩ = .ok acc ∧ acc.okLines = ["ok " ++ main, "ok " ++ dev] := by
    rw [twoSpecs, List.foldlM_cons, hmain]
    exact ⟨_, bind_eq_ok.mpr ⟨_, rfl, bind_eq_ok.mpr ⟨_, hdev _, rfl⟩⟩, rfl⟩
  obtain ⟨acc, hacc, hlines⟩ := hfold
  exact ⟨acc, bind_eq_ok.mpr ⟨acc, hacc, rfl⟩, hlines⟩

end Sample

/-- Both refs are as reported, and the rest of the state is kept. -/
theorem push_effect_two : ∃ acc result,
    buildDelta Sample.signerCrypto Sample.params Sample.signerKey (Sample.signerHost 1 1) Sample.pushEnv
      Sample.paired Sample.twoSpecs = .ok acc ∧
    acc.okLines = ["ok " ++ Sample.main, "ok " ++ Sample.dev] ∧
    updateState Sample.signerCrypto Sample.params Sample.paired acc.delta = .ok result ∧
    PushEffect Sample.signerCrypto (Sample.signerHost 1 1) Sample.pushEnv Sample.paired
      Sample.twoSpecs acc result := by
  obtain ⟨acc, hacc, hlines⟩ := Sample.twoSpecs_delta
  obtain ⟨result, hresult, heffect⟩ := push_effect (validateState_eq_ok.mpr Sample.paired_accepted)
    Sample.paired_belowLast rfl Sample.signer_verifies Sample.twoSpecs_distinct
    Sample.twoSpecs_namesFit hacc
  exact ⟨acc, result, hacc, hlines, hresult, heffect⟩

end FreenetGit
