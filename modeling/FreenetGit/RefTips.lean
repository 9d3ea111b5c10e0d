/-
# `FreenetGit.RefTips` — every ref points to an advertised tip

A push writes its ref and the tip of its bundle together, but the tip stands under
the key of the bundle and always has the number 1.  Two commits that are pushed in
one and the same pack, such as the empty pack of a ref that is moved back, compete
for one key; the signatures decide, and the ref of the other commit loses its tip.
While no bundle is published for a second commit (`OneTip`), every ref keeps it.
-/
import FreenetGit.PushFetch

namespace FreenetGit

open Lib

/-- Every ref points to the tip of an indexed bundle. -/
def RefsTipped (s : RepoState) : Prop :=
  ∀ (n : RefName) (e : RefEntry), s.refs[n]? = some e → ∃ id r tip,
    s.objectIndex[id]? = some r ∧ s.extensions[bundleTipExtensionKey id]? = some tip ∧
      tip.value = e.target.toList

/-- No bundle of the push has another tip already, in the state or in the push. -/
def OneTip (cr : Crypto) (params : RepoParams) (key : SigningKey)
    (t : Transition RepoState PushCall) : Prop :=
  ∀ p ∈ t.event.publications cr params key t.before,
    (∀ tip, t.before.extensions[bundleTipExtensionKey (p.bundle.id cr)]? = some tip →
      tip.value = p.tip.toList) ∧
    ∀ q ∈ t.event.publications cr params key t.before, q.bundle.id cr = p.bundle.id cr →
      q.tip = p.tip

/-- Every bundle was published for one commit. -/
def TipPerBundle (cr : Crypto) (F : List Publication) : Prop :=
  ∀ p ∈ F, ∀ q ∈ F, q.bundle.id cr = p.bundle.id cr → q.tip = p.tip

section

variable {cr : Crypto} {params : RepoParams} {key : SigningKey} {F : List Publication}
  {s s' : RepoState}

/-- The tip of a bundle that was published for one commit is that commit. -/
theorem TipPerBundle.tip (hone : TipPerBundle cr F) (h : Advertises cr F s) {p : Publication}
    (hp : p ∈ F) {tip : ExtensionEntry}
    (htip : s.extensions[bundleTipExtensionKey (p.bundle.id cr)]? = some tip) :
    tip.value = p.tip.toList := by
  rcases h.extensions _ tip htip with hk | ⟨q, hq, hk, hv⟩
  · have hparse := parseBundleTipExtensionKey_key (p.bundle.id cr)
    rw [hk, parse_mirrorMode] at hparse
    cases hparse
  · rw [hv, hone p hp q hq (bundleTipExtensionKey_inj hk).symm]

/-- Every ref points to a tip, if every bundle was published for one commit. -/
theorem TipPerBundle.refsTipped (hone : TipPerBundle cr F) (h : Advertises cr F s) :
    RefsTipped s := by
  intro n e he
  obtain ⟨p, hp, hpe⟩ := h.refs n e he
  obtain ⟨r, hr⟩ := h.indexed p hp
  obtain ⟨tip, htip⟩ := h.tipped p hp
  refine ⟨p.bundle.id cr, r, tip, hr, htip, ?_⟩
  rw [hone.tip h hp htip, hpe]

/-- A push that gives no bundle a second tip keeps one commit for each. -/
theorem TipPerBundle.push {call : PushCall} (hone : TipPerBundle cr F) (h : Advertises cr F s)
    (hstep : OneTip cr params key ⟨s, call, s'⟩) :
    TipPerBundle cr (F ++ call.publications cr params key s) := by
  have hnew : ∀ p ∈ F, ∀ q ∈ call.publications cr params key s,
      p.bundle.id cr = q.bundle.id cr → p.tip = q.tip := by
    intro p hp q hq hid
    obtain ⟨tip, htip⟩ := h.tipped p hp
    have hv := hone.tip h hp htip
    rw [hid] at htip
    exact Vector.toList_inj.mp (hv.symm.trans ((hstep q hq).1 tip htip))
  intro p hp q hq hid
  rcases List.mem_append.mp hp with hp | hp <;> rcases List.mem_append.mp hq with hq | hq
  · exact hone p hp q hq hid
  · exact (hnew p hp q hq hid.symm).symm
  · exact hnew q hq p hp hid
  · exact (hstep p hp).2 q hq hid

/-- **Every ref stays advertised** over a run of pushes in which no bundle is published
for a second commit. -/
theorem refs_tipped {name description defaultBranch : String} {s₀ : RepoState}
    {tr : List (Transition RepoState PushCall)}
    (h₀ : initialRepoState cr params key name description defaultBranch = some s₀)
    (hrun : Run (OwnerPush cr params key) s₀ tr s) (hone : ∀ t ∈ tr, OneTip cr params key t) :
    RefsTipped s := by
  obtain ⟨hr, hi, he⟩ := initialRepoState_empty h₀
  have hempty : Advertises cr [] s₀ := Advertises.empty hr hi he
  have hnone : TipPerBundle cr [] := fun p hp => absurd hp List.not_mem_nil
  have hstep : ∀ (tr : List (Transition RepoState PushCall)) (s : RepoState) (call : PushCall)
      (s' : RepoState),
      Advertises cr (publications cr params key tr) s ∧
        TipPerBundle cr (publications cr params key tr) →
      OwnerPush cr params key s call s' → OneTip cr params key ⟨s, call, s'⟩ →
      Advertises cr (publications cr params key (tr ++ [⟨s, call, s'⟩])) s' ∧
        TipPerBundle cr (publications cr params key (tr ++ [⟨s, call, s'⟩])) := by
    intro tr s call s' hinv hp hone
    obtain ⟨h, htips⟩ := hinv
    rw [publications, List.flatMap_append, List.flatMap_singleton]
    exact ⟨h.push hp, htips.push h hone⟩
  obtain ⟨h, htips⟩ := hrun.history (fun tr s => Advertises cr (publications cr params key tr) s ∧
    TipPerBundle cr (publications cr params key tr)) ⟨hempty, hnone⟩ hstep hone
  exact htips.refsTipped h

end

/-! The commit of the branch is pushed to a second branch as well, in the same pack. -/

namespace Sample

def pushDev : PushCall := onePush "refs/heads/dev:refs/heads/dev" 2 2

def branched : RepoState := mergeState paired (pushDelta dev 2 2 (seenSeq paired dev + 1))

def branchedTrace : List (Transition RepoState PushCall) :=
  [⟨created, pushPair, paired⟩, ⟨paired, pushDev, branched⟩]

theorem branched_run :
    Run (OwnerPush signerCrypto params signerKey) created branchedTrace branched :=
  run_sent pair_run (push_sent (k := 2) dev_spec rfl (by decide) (by rw [paired_dev]; nofun)
    paired_accepted rfl)

theorem pushDev_publications :
    pushDev.publications signerCrypto params signerKey paired = [pairPublication] := by
  refine (push_publications dev_spec rfl (by decide) ?_ paired_accepted rfl).trans ?_
  · rw [paired_dev]
    nofun
  · rw [paired_dev]
    rfl

theorem paired_advertises : Advertises signerCrypto [pairPublication] paired := by
  have h := run_advertises created_eq pair_run
  rwa [pair_publications] at h

theorem paired_tipPerBundle : TipPerBundle signerCrypto [pairPublication] := by
  intro p hp q hq _
  rw [List.mem_singleton.mp hp, List.mem_singleton.mp hq]

/-- A push that publishes one pack, whose tip it has or will have. -/
theorem oneTip_of_eq {t : Transition RepoState PushCall} {p : Publication}
    (h : t.event.publications signerCrypto params signerKey t.before = [p])
    (htip : ∀ tip, t.before.extensions[bundleTipExtensionKey (p.bundle.id signerCrypto)]? = some tip →
      tip.value = p.tip.toList) : OneTip signerCrypto params signerKey t := by
  intro q hq
  rw [h] at hq ⊢
  cases List.mem_singleton.mp hq
  exact ⟨htip, fun q hq _ => by rw [List.mem_singleton.mp hq]⟩

end Sample

/-- The commit is pushed to two branches: both refs point to the one tip. -/
theorem refs_tipped_dev : RefsTipped Sample.branched := by
  refine refs_tipped Sample.created_eq Sample.branched_run fun t ht => ?_
  simp only [Sample.branchedTrace, List.mem_cons, List.not_mem_nil, or_false] at ht
  rcases ht with rfl | rfl
  · have hext : ∀ k : String, Sample.created.extensions[k]? = none :=
      fun _ => Std.ExtTreeMap.getElem?_empty
    exact Sample.oneTip_of_eq Sample.pushPair_publications fun tip htip => by
      rw [hext] at htip
      cases htip
  · -- the same pack again, under the tip it has
    exact Sample.oneTip_of_eq Sample.pushDev_publications fun tip htip =>
      Sample.paired_tipPerBundle.tip Sample.paired_advertises List.mem_cons_self htip

/-! The ref was moved back to the commit 1; now it is moved back to the commit 4, a parent
of 1.  The pack is empty again, so it is the bundle of 1, and the signature over the tip 1
is preferred. -/

namespace Sample

/-- The third push. -/
def pushBackAgain : PushCall := onePush "+refs/heads/main:refs/heads/main" 4 1

def movedBackAgain : RepoState :=
  mergeState movedBack (pushDelta main 4 1 (seenSeq movedBack main + 1))

def backAgainTrace : List (Transition RepoState PushCall) :=
  backTrace ++ [⟨movedBack, pushBackAgain, movedBackAgain⟩]

theorem movedBack_accepted : Accepted signerCrypto params movedBack :=
  push_accepted (by decide) paired_accepted rfl

theorem backAgain_run :
    Run (OwnerPush signerCrypto params signerKey) created backAgainTrace movedBackAgain :=
  run_sent back_run (push_sent (k := 1) pushBack_spec rfl (by decide)
    (by rw [movedBack_main]; decide) movedBack_accepted rfl)

theorem movedBackAgain_main :
    (movedBackAgain.refs[main]?).map (·.target) = some (sha 4) := by
  rw [movedBackAgain, pushed_main (by rw [movedBack_seq]; decide)]
  rfl

def againPublication : Publication := ⟨sha 4, some (sha 1), packOf 1, bundleOf 1⟩

theorem pushBackAgain_publications :
    pushBackAgain.publications signerCrypto params signerKey movedBack = [againPublication] := by
  refine (push_publications pushBack_spec rfl (by decide) ?_ movedBack_accepted rfl).trans ?_
  · rw [movedBack_main]
    decide
  · rw [movedBack_main]
    rfl

/-- The empty pack was published for two commits, and the tip 1 stays. -/
theorem movedBackAgain_tip :
    movedBackAgain.at (.extension (bundleTipExtensionKey backId)) = some (tipEntry 1 1) := by
  have hne : bundleId 2 ≠ backId := by decide
  have hcreated : created.at (.extension (bundleTipExtensionKey backId)) = none :=
    Std.ExtTreeMap.getElem?_empty
  have hpaired : paired.at (.extension (bundleTipExtensionKey backId)) = none := by
    rw [paired, mergeState_at, pushDelta_tip, if_neg hne, hcreated]
    rfl
  have hback : movedBack.at (.extension (bundleTipExtensionKey backId)) = some (tipEntry 1 1) := by
    refine pushed_tip.trans ?_
    rw [show paired.at (.extension (bundleTipExtensionKey (bundleId 1))) = none from hpaired]
    rfl
  -- equal numbers: the lower signature stays
  have hwins : pickHigherSeq 1 (tipEntry 1 1).signature 1 (tipEntry 4 1).signature = true := by
    decide +kernel
  refine pushed_tip.trans ?_
  rw [show movedBack.at (.extension (bundleTipExtensionKey (bundleId 1))) = _ from hback]
  exact congrArg some (if_pos hwins)

theorem backAgain_publications : publications signerCrypto params signerKey backAgainTrace =
    [pairPublication, backPublication, againPublication] := by
  rw [publications, backAgainTrace, List.flatMap_append, List.flatMap_singleton,
    pushBackAgain_publications]
  exact congrArg (· ++ [againPublication]) back_publications

theorem movedBackAgain_advertises :
    Advertises signerCrypto [pairPublication, backPublication, againPublication] movedBackAgain := by
  rw [← backAgain_publications]
  exact run_advertises created_eq backAgain_run

end Sample

/-- The owner pushed a commit and moved the ref back twice: the ref points to no tip. -/
theorem ref_untipped :
    initialRepoState Sample.signerCrypto Sample.params Sample.signerKey "" "" Sample.main =
      some Sample.created ∧
    Run (OwnerPush Sample.signerCrypto Sample.params Sample.signerKey) Sample.created
      Sample.backAgainTrace Sample.movedBackAgain ∧
    ¬ RefsTipped Sample.movedBackAgain := by
  refine ⟨Sample.created_eq, Sample.backAgain_run, fun h => ?_⟩
  obtain ⟨e, he, htarget⟩ := Option.map_eq_some_iff.mp Sample.movedBackAgain_main
  obtain ⟨id, r, tip, -, htip, hvalue⟩ := h Sample.main e he
  rw [htarget] at hvalue
  have hone : Sample.sha 1 ≠ Sample.sha 4 := by decide
  have htwo : Sample.sha 2 ≠ Sample.sha 4 := by decide
  rcases Sample.movedBackAgain_advertises.extensions _ tip htip with hk | ⟨p, hp, hk, hv⟩
  · have hparse := parseBundleTipExtensionKey_key id
    rw [hk, parse_mirrorMode] at hparse
    cases hparse
  · have hp4 : p.tip = Sample.sha 4 := Vector.toList_inj.mp (hv.symm.trans hvalue)
    simp only [List.mem_cons, List.not_mem_nil, or_false] at hp
    rcases hp with rfl | rfl | rfl
    · exact htwo hp4
    · exact hone hp4
    · -- its bundle is the empty pack, whose tip is 1
      cases Sample.movedBackAgain_tip.symm.trans (hk ▸ htip)
      exact hone (Vector.toList_inj.mp hvalue)

end FreenetGit
