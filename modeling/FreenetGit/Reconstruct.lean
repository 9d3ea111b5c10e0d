/-
# `FreenetGit.Reconstruct` — what a clone can rebuild of a linear history

The owner moves one branch forward along a linear history and adds tags.  The
clone rebuilds a pack of the branch if the tip before the new target, in the order
of the ancestor counts, is the old target or a tag of it.  A tag in between, or a
tag of the new target that sorts before it, hides the pack (`Clear`).

So after a run of pushes the clone has every pack if and only if none is hidden
(`local_packs_cover_iff`); a tag of a commit between two pushes is enough.
-/
import FreenetGit.LinearHistory
import FreenetGit.LocalPack

namespace FreenetGit

open Lib

/-! ## The pushes -/

/-- A push of history mode: each refspec moves the branch forward along the line, or names a
tag of one of its commits that is new, or is there already. -/
def LinearRefspec (g : ObjectGraph) (line : Set CommitHash) (branch : RefName) (host : PushHost)
    (state : RepoState) (spec : String) : Prop :=
  ∀ force src dst newTarget, parsePushSpec spec = .ok (force, src, dst) →
    host.resolveRef src = .ok newTarget →
    ∃ target, newTarget = hexEncodeCommit target ∧
      ((dst = branch ∧ target ∈ line ∧ ∀ e, state.refs[dst]? = some e →
          e.target ∈ line ∧ Reach g target e.target) ∨
        ((∃ c ∈ line, PeelsTo g target c) ∧ ∀ e, state.refs[dst]? = some e → e.target = target))

/-- The pushes of a run; a chunked publish gives a chunked pack. -/
structure LinearPush (g : ObjectGraph) (line : Set CommitHash) (branch : RefName)
    (t : Transition RepoState PushCall) : Prop where
  specs : ∀ spec ∈ t.event.pushes, LinearRefspec g line branch t.event.host t.before spec
  chunked : ∀ pack b, t.event.host.publishChunked pack = .ok b →
    ∃ m total count, b = .chunkedPack m total count

/-- A publication of such a push. -/
structure OnLine (g : ObjectGraph) (line : Set CommitHash) (cr : Crypto) (p : Publication) :
    Prop where
  peels : ∃ c ∈ line, PeelsTo g p.tip c
  ahead : ∀ h ∈ p.have_, h ∈ line ∧ p.tip ∈ line ∧ Reach g p.tip h ∧ h ≠ p.tip
  single : ∀ packHash sizeBytes, p.bundle = .singlePack packHash sizeBytes →
    packHash = cr.blake3 p.pack

section

variable {g : ObjectGraph} {line : Set CommitHash} {branch : RefName} {cr : Crypto}
  {params : RepoParams} {key : SigningKey} {host : PushHost} {env : PushEnv} {state : RepoState}
  {p : Publication}

/-- What a refspec published was resolved, was new, and was packed. -/
theorem publication_eq_some {spec : String} (h : publication cr host env state spec = some p) :
    ∃ force src dst newTarget, parsePushSpec spec = .ok (force, src, dst) ∧
      host.resolveRef src = .ok newTarget ∧
      isAlreadyUpToDate ((state.refs[dst]?).map fun e => hexEncode e.target.toList) newTarget =
        false ∧
      parseSha1 newTarget = .ok p.tip ∧
      p.have_ = effectiveHave host ((state.refs[dst]?).map (·.target)) ∧
      publishBundle cr host env p.pack = .ok p.bundle := by
  rw [publication] at h
  split at h
  · cases h
  next force src dst hspec =>
  unfold publicationOf at h
  dsimp only at h
  split at h
  · cases h
  split at h
  · cases h
  next newTarget hresolve =>
  split at h
  · cases h
  next hnew =>
  split at h
  · cases h
  next pack hpack =>
  split at h
  · next bundle tip hpublish htip =>
      cases h
      exact ⟨force, src, dst, newTarget, hspec, hresolve, Bool.eq_false_iff.mpr hnew, htip, rfl,
        hpublish⟩
  · cases h

theorem effectiveHave_eq_some {prev : Option CommitHash} {h : CommitHash}
    (hh : effectiveHave host prev = some h) : prev = some h :=
  (Option.filter_eq_some_iff.mp hh).1

/-- The hash of a single pack is that of its bytes. -/
theorem publishBundle_single {pack : Bytes} {packHash : PackHash} {sizeBytes : UInt64}
    (hchunked : ∀ pack b, host.publishChunked pack = .ok b →
      ∃ m total count, b = .chunkedPack m total count)
    (h : publishBundle cr host env pack = .ok (.singlePack packHash sizeBytes)) :
    packHash = cr.blake3 pack := by
  rw [publishBundle] at h
  split at h
  · obtain ⟨_, -, h⟩ := bind_eq_ok.mp h
    cases h
    rfl
  · obtain ⟨_, -, h⟩ := bind_eq_ok.mp h
    obtain ⟨m, total, count, hb⟩ := hchunked _ _ h
    cases hb

theorem LinearRefspec.onLine {spec : String} (hspec : LinearRefspec g line branch host state spec)
    (hline : LinearHistory g line)
    (hchunked : ∀ pack b, host.publishChunked pack = .ok b →
      ∃ m total count, b = .chunkedPack m total count)
    (h : publication cr host env state spec = some p) : OnLine g line cr p := by
  obtain ⟨force, src, dst, newTarget, hparse, hresolve, hnew, htip, hhave, hpublish⟩ :=
    publication_eq_some h
  obtain ⟨target, rfl, htarget⟩ := hspec force src dst newTarget hparse hresolve
  obtain rfl : target = p.tip := Except.ok.inj ((parseSha1_hexEncode target).symm.trans htip)
  refine ⟨?_, fun c hc => ?_, fun packHash sizeBytes hb => ?_⟩
  · rcases htarget with ⟨-, hmem, -⟩ | ⟨hpeels, -⟩
    · exact ⟨p.tip, hmem, .commit (hline.commit p.tip hmem)⟩
    · exact hpeels
  · rw [hhave] at hc
    obtain ⟨e, he, rfl⟩ := Option.map_eq_some_iff.mp (effectiveHave_eq_some hc)
    have hne : e.target ≠ p.tip := fun heq => by
      rw [he, Option.map_some, heq, isAlreadyUpToDate, hexEncodeCommit, beq_self_eq_true] at hnew
      cases hnew
    rcases htarget with ⟨-, hmem, hforward⟩ | ⟨-, hsame⟩
    · exact ⟨(hforward e he).1, hmem, (hforward e he).2, hne⟩
    · exact absurd (hsame e he) hne
  · rw [hb] at hpublish
    exact publishBundle_single hchunked hpublish

/-- **What a run of such pushes published** lies on the line. -/
theorem onLine_of_mem {tr : List (Transition RepoState PushCall)} (hline : LinearHistory g line)
    (hpush : ∀ t ∈ tr, LinearPush g line branch t) :
    ∀ p ∈ publications cr params key tr, OnLine g line cr p := by
  intro p hp
  obtain ⟨t, ht, hp⟩ := List.mem_flatMap.mp hp
  unfold PushCall.publications at hp
  split at hp
  · obtain ⟨spec, hspec, hp⟩ := List.mem_filterMap.mp hp
    exact ((hpush t ht).specs spec hspec).onLine hline (hpush t ht).chunked hp
  · exact absurd hp List.not_mem_nil

/-- What the packs leave out was published. -/
def LeavesPublished (F : List Publication) : Prop := ∀ p ∈ F, ∀ h ∈ p.have_, Advertised F h

/-- A pack leaves out what a ref of the contract points to. -/
theorem Advertises.leavesPublished {call : PushCall} {F : List Publication}
    (ha : Advertises cr F state) (hF : LeavesPublished F) :
    LeavesPublished (F ++ call.publications cr params key state) := by
  intro p hp h hh
  have hold : Advertised F h := by
    rcases List.mem_append.mp hp with hp | hp
    · exact hF p hp h hh
    · unfold PushCall.publications at hp
      split at hp
      · obtain ⟨spec, -, hpub⟩ := List.mem_filterMap.mp hp
        obtain ⟨_, _, dst, _, _, _, _, _, heq, _⟩ := publication_eq_some hpub
        rw [heq] at hh
        obtain ⟨e, he, rfl⟩ := Option.map_eq_some_iff.mp (effectiveHave_eq_some hh)
        exact ha.refs dst e he
      · exact absurd hp List.not_mem_nil
  obtain ⟨q, hq, ht⟩ := hold
  exact ⟨q, List.mem_append_left _ hq, ht⟩

theorem run_leavesPublished {name description defaultBranch : String} {s₀ s : RepoState}
    {tr : List (Transition RepoState PushCall)}
    (h₀ : initialRepoState cr params key name description defaultBranch = some s₀)
    (hrun : Run (OwnerPush cr params key) s₀ tr s) :
    LeavesPublished (publications cr params key tr) := by
  induction hrun with
  | nil => exact nofun
  | snoc hrun _ ih =>
      rw [publications, List.flatMap_append, List.flatMap_singleton]
      exact (run_advertises h₀ hrun).leavesPublished ih

end

/-! ## What the clone can rebuild -/

/-- A pair that may be packed: a published commit, without an earlier one or whole. -/
def Askable (F : List Publication) (c : Option CommitHash × CommitHash) : Prop :=
  Advertised F c.2 ∧ ∀ h ∈ c.1, Advertised F h

/-- What is assumed of git, of the clone and of the hash function. -/
structure Reproducible (g : ObjectGraph) (packOf : Set CommitHash → Bytes) (cr : Crypto)
    (clone : CloneGit) (F : List Publication) : Prop where
  acyclic : Acyclic g
  /-- A pack is a function of the objects that were listed, -/
  packs : ∀ p ∈ F, p.pack = packOf (p.objects g)
  /-- in the clone as well, which has all of them, -/
  ranges : ∀ c, Askable F c →
    clone.revPack (c.1.map hexEncodeCommit) (hexEncodeCommit c.2) = .ok (packOf (listed g c.1 c.2))
  /-- and counts the commits. -/
  counts : ∀ t, Advertised F t → clone.revListCount (hexEncodeCommit t) = .ok (commitCount g t)
  /-- The packs of different objects differ, and have different hashes. -/
  hashes : {S | ∃ c, Askable F c ∧ S = listed g c.1 c.2}.InjOn fun S => cr.blake3 (packOf S)
  /-- No two published bundles have one hash, -/
  ids : {bs | ∃ p ∈ F, bs = p.bundle.encoding}.InjOn cr.blake3
  /-- and a bundle stands for one pack. -/
  contents : ∀ p ∈ F, ∀ q ∈ F, p.bundle = q.bundle → p.pack = q.pack

/-- The order of the tips: by the number of ancestors, and then by the bytes. -/
def Before (g : ObjectGraph) (a b : CommitHash) : Prop :=
  commitCount g a < commitCount g b ∨
    (commitCount g a = commitCount g b ∧ (compare a b).isLE = true)

/-- No tip is between the old target and the new one: neither by its ancestors, nor as a
tag of the new one that sorts before it. -/
def Unhidden (g : ObjectGraph) (F : List Publication) (old new : CommitHash) : Prop :=
  ∀ q ∈ F, ¬ (commitCount g old < commitCount g q.tip ∧ commitCount g q.tip < commitCount g new) ∧
    ¬ (commitCount g q.tip = commitCount g new ∧ compare q.tip new = .lt)

/-- No pack that leaves something out is hidden. -/
def Clear (g : ObjectGraph) (F : List Publication) : Prop :=
  ∀ p ∈ F, ∀ packHash sizeBytes, p.bundle = .singlePack packHash sizeBytes →
    ∀ old ∈ p.have_, Unhidden g F old p.tip

/-- The map has the pack of every single-pack bundle of the state. -/
def Covered (cr : Crypto) (clone : CloneGit) (F : List Publication) (state : RepoState) : Prop :=
  ∀ (id : ObjectBundleId) (r : ObjectBundleRecord) (packHash : PackHash) (sizeBytes : UInt64),
    state.objectIndex[id]? = some r → r.bundle = .singlePack packHash sizeBytes →
    ∃ p ∈ F, p.bundle = r.bundle ∧ (buildLocalPackMap cr clone state)[packHash]? = some p.pack

section

variable {g : ObjectGraph} {line : Set CommitHash} {packOf : Set CommitHash → Bytes} {cr : Crypto}
  {clone : CloneGit} {F : List Publication} {state : RepoState} {p q : Publication}
  {c : Option CommitHash × CommitHash} {t u old : CommitHash}

/-- A pack on the line has its tip. -/
theorem OnLine.tip_mem (hacyclic : Acyclic g) (hp : OnLine g line cr p) :
    p.tip ∈ p.objects g := by
  refine ⟨.refl, fun h hh hr => ?_⟩
  obtain ⟨-, -, hahead, hne⟩ := hp.ahead h hh
  exact hne (hacyclic h p.tip hr hahead)

namespace Before

theorem count_le (h : Before g t u) : commitCount g t ≤ commitCount g u := by
  rcases h with h | ⟨h, -⟩
  · exact h.le
  · exact h.le

/-- With as many ancestors, the bytes decide. -/
theorem tie (h : Before g t u) (hne : t ≠ u) :
    commitCount g t < commitCount g u ∨
      (commitCount g t = commitCount g u ∧ compare t u = .lt) := by
  refine h.imp_right (And.imp_right fun hle => ?_)
  exact (Ordering.isLE_iff_eq_lt_or_eq_eq.mp hle).resolve_right fun heq =>
    hne (Std.LawfulEqCmp.eq_of_compare heq)

/-- What comes after `u` does not hide it. -/
theorem not_between (h : Before g u t) :
    ¬ commitCount g t < commitCount g u ∧
      ¬ (commitCount g t = commitCount g u ∧ compare t u = .lt) := by
  refine ⟨h.count_le.not_gt, fun ⟨heq, hlt⟩ => ?_⟩
  rcases h with h | ⟨-, hle⟩
  · exact h.ne' heq
  · exact Std.OrientedCmp.not_lt_of_isLE hle hlt

end Before

/-- The state that a run of pushes along a line has reached. -/
structure LinearState (g : ObjectGraph) (line : Set CommitHash)
    (packOf : Set CommitHash → Bytes) (cr : Crypto) (clone : CloneGit) (F : List Publication)
    (state : RepoState) : Prop where
  reproducible : Reproducible g packOf cr clone F
  linear : LinearHistory g line
  onLine : ∀ p ∈ F, OnLine g line cr p
  leaves : LeavesPublished F
  advertises : Advertises cr F state

namespace LinearState

variable (hs : LinearState g line packOf cr clone F state)

include hs

theorem acyclic : Acyclic g := hs.reproducible.acyclic

theorem askable (hp : p ∈ F) : Askable F (p.have_, p.tip) := ⟨⟨p, hp, rfl⟩, hs.leaves p hp⟩

/-- A bundle was published for one set of objects. -/
theorem objects_eq (hp : p ∈ F) (hq : q ∈ F) (h : p.bundle.id cr = q.bundle.id cr) :
    p.objects g = q.objects g := by
  have hd := hs.reproducible
  have hb : p.bundle = q.bundle := ObjectBundle.id_inj hd.ids ⟨p, hp, rfl⟩ ⟨q, hq, rfl⟩ h
  have hpack := hd.contents p hp q hq hb
  rw [hd.packs p hp, hd.packs q hq] at hpack
  exact hd.hashes ⟨_, hs.askable hp, rfl⟩ ⟨_, hs.askable hq, rfl⟩ (congrArg cr.blake3 hpack)

/-- A bundle was published for one tip. -/
theorem tip_eq (hp : p ∈ F) (hq : q ∈ F) (h : p.bundle.id cr = q.bundle.id cr) :
    p.tip = q.tip := by
  have heq := hs.objects_eq hp hq h
  have hpq : p.tip ∈ q.objects g := heq ▸ (hs.onLine p hp).tip_mem hs.acyclic
  have hqp : q.tip ∈ p.objects g := heq.symm ▸ (hs.onLine q hq).tip_mem hs.acyclic
  exact hs.acyclic _ _ hqp.1 hpq.1

/-- **The tips that are ordered** are those that were published. -/
theorem mem_sortedTips_iff : t ∈ (sortedTips clone state).map (·.tip) ↔ Advertised F t := by
  rw [List.mem_map]
  constructor
  · rintro ⟨e, he, rfl⟩
    obtain ⟨⟨entry, hmem, htip⟩, -⟩ := mem_sortedTips.mp he
    obtain ⟨p, hp, -, ht⟩ := hs.advertises.of_bundleTip hmem htip
    exact ⟨p, hp, ht⟩
  · rintro ⟨p, hp, rfl⟩
    obtain ⟨q, hq, hid, hentry⟩ := hs.advertises.exists_bundleTip hp
    rw [hs.tip_eq hq hp hid] at hentry
    exact ⟨⟨p.bundle.id cr, p.tip, commitCount g p.tip⟩,
      mem_sortedTips.mpr ⟨hentry, hs.reproducible.counts p.tip ⟨p, hp, rfl⟩⟩, rfl⟩

/-- Only what was published is packed. -/
theorem askable_of_packed (hc : c ∈ packed clone state) : Askable F c := by
  obtain ⟨hwant, hleft⟩ := mem_tips_of_packed hc
  exact ⟨hs.mem_sortedTips_iff.mp hwant, fun x hx => hs.mem_sortedTips_iff.mp (hleft x hx)⟩

/-- **The tips are in the order** of their numbers of ancestors. -/
theorem sortedTips_before : ((sortedTips clone state).map (·.tip)).Pairwise (Before g) := by
  have hcount : ∀ e ∈ sortedTips clone state, e.count = commitCount g e.tip := fun e he => by
    have hadv := hs.mem_sortedTips_iff.mp (List.mem_map_of_mem he)
    have hc := (mem_sortedTips.mp he).2
    rw [ancestorCount, hs.reproducible.counts e.tip hadv] at hc
    exact (Except.ok.inj hc).symm
  rw [List.pairwise_map]
  refine (sortedTips_pairwise clone state).imp_of_mem fun {a b} hma hmb hab => ?_
  have hab := tipOrder_isLE.mp hab
  rwa [hcount a hma, hcount b hmb] at hab

theorem revPack_eq (hc : c ∈ packed clone state) :
    clone.revPack (c.1.map hexEncodeCommit) (hexEncodeCommit c.2) =
      .ok (packOf (listed g c.1 c.2)) :=
  hs.reproducible.ranges c (hs.askable_of_packed hc)

/-- A pair whose pack has the hash of a published one lists its objects. -/
theorem listed_eq_of_hash (hp : p ∈ F) (hc : c ∈ packed clone state)
    (h : cr.blake3 (packOf (listed g c.1 c.2)) = cr.blake3 p.pack) :
    listed g c.1 c.2 = p.objects g := by
  rw [hs.reproducible.packs p hp] at h
  exact hs.reproducible.hashes ⟨c, hs.askable_of_packed hc, rfl⟩ ⟨_, hs.askable hp, rfl⟩ h

/-- **The map has a pack** if and only if a pair that lists its objects is packed. -/
theorem buildLocalPackMap_eq_pack_iff (hp : p ∈ F) :
    (buildLocalPackMap cr clone state)[cr.blake3 p.pack]? = some p.pack ↔
      ∃ c ∈ packed clone state, listed g c.1 c.2 = p.objects g := by
  constructor
  · intro h
    obtain ⟨-, c, hc, hok⟩ := of_buildLocalPackMap h
    rw [hs.revPack_eq hc] at hok
    exact ⟨c, hc, hs.listed_eq_of_hash hp hc (congrArg cr.blake3 (Except.ok.inj hok))⟩
  · rintro ⟨c, hc, heq⟩
    have hok := hs.revPack_eq hc
    rw [heq, ← hs.reproducible.packs p hp] at hok
    obtain ⟨bs, hbs⟩ := @exists_buildLocalPackMap cr _ _ _ _ _ hc hok
    obtain ⟨hhash, c', hc', hok'⟩ := of_buildLocalPackMap hbs
    -- whatever was there first under the hash is the same pack
    rw [hs.revPack_eq hc'] at hok'
    obtain rfl := Except.ok.inj hok'
    rw [hbs, hs.listed_eq_of_hash hp hc' hhash, ← hs.reproducible.packs p hp]

/-- A whole pack is rebuilt. -/
theorem exists_packed_of_whole (hp : p ∈ F) (h : p.have_ = none) :
    ∃ c ∈ packed clone state, listed g c.1 c.2 = p.objects g := by
  refine ⟨(none, p.tip), ?_, ?_⟩
  · exact mem_packCandidates_none.mpr (hs.mem_sortedTips_iff.mpr ⟨p, hp, rfl⟩)
  · show listed g none p.tip = listed g p.have_ p.tip
    rw [h]

/-- A branch moves to a commit with more ancestors. -/
theorem count_lt (hp : p ∈ F) (hold : p.have_ = some old) :
    commitCount g old < commitCount g p.tip := by
  obtain ⟨-, htip, hahead, hne⟩ := (hs.onLine p hp).ahead old hold
  exact hs.linear.commitCount_lt hs.acyclic htip hahead hne

/-- **A pack that is not hidden is rebuilt**: the tip before the new one is the old one, or
a tag of it. -/
theorem exists_packed_of_unhidden (hp : p ∈ F) (hold : p.have_ = some old)
    (hclear : Unhidden g F old p.tip) :
    ∃ c ∈ packed clone state, listed g c.1 c.2 = p.objects g := by
  obtain ⟨holdline, htipline, -, hne⟩ := (hs.onLine p hp).ahead old hold
  have hnot : ¬ Before g p.tip old := fun h => h.count_le.not_gt (hs.count_lt hp hold)
  obtain ⟨x, l₁, l₂, hsplit, hxne, hxtip, hxold⟩ := exists_before hs.sortedTips_before
    (hs.mem_sortedTips_iff.mpr ⟨p, hp, rfl⟩) (hs.mem_sortedTips_iff.mpr (hs.leaves p hp old hold))
    hne hnot
  have hx : (some x, p.tip) ∈ packed clone state :=
    mem_packCandidates_some.mpr ⟨l₁, l₂, hsplit⟩
  obtain ⟨q, hq, rfl⟩ := (hs.askable_of_packed hx).2 x rfl
  obtain ⟨hbetween, htie⟩ := hclear q hq
  have hlt : commitCount g q.tip < commitCount g p.tip := (hxtip.tie hxne).resolve_right htie
  have hle : commitCount g old ≤ commitCount g q.tip := by
    rcases hxold with rfl | h
    · exact le_rfl
    · exact h.count_le
  -- so the tip before the new one has as many ancestors as the old target, and peels to it
  obtain ⟨d, hdline, hpeels⟩ := (hs.onLine q hq).peels
  have hcount : commitCount g d = commitCount g old := by
    rw [← hpeels.commitCount_eq]
    by_contra hcne
    exact hbetween ⟨lt_of_le_of_ne hle fun h => hcne h.symm, hlt⟩
  obtain rfl := hs.linear.eq_of_count_eq hs.acyclic hdline holdline hcount
  refine ⟨_, hx, ?_⟩
  show listed g (some q.tip) p.tip = listed g p.have_ p.tip
  rw [hs.linear.listed_eq htipline hpeels, hold]

/-- A pair that lists the objects of a pack of the branch is the new target with a tip that
has as many ancestors as the old one. -/
theorem packed_of_listed (hp : p ∈ F) (hold : p.have_ = some old) (hc : c ∈ packed clone state)
    (heq : listed g c.1 c.2 = p.objects g) :
    ∃ x, c = (some x, p.tip) ∧ commitCount g x = commitCount g old := by
  obtain ⟨holdline, htipline, hahead, hne⟩ := (hs.onLine p hp).ahead old hold
  obtain ⟨have_, want⟩ := c
  have heq : listed g have_ want = listed g (some old) p.tip := by
    rw [← hold]
    exact heq
  have htip : p.tip ∈ listed g have_ want := by
    rw [heq, ← hold]
    exact (hs.onLine p hp).tip_mem hs.acyclic
  have hwant : want ∈ listed g (some old) p.tip := by
    rw [← heq]
    exact ⟨.refl, fun b hb hr => htip.2 b hb (hr.trans htip.1)⟩
  obtain rfl : want = p.tip := hs.acyclic _ _ htip.1 hwant.1
  cases have_ with
  | none =>
      -- without a `have` the old target would be listed
      have hlisted : old ∈ listed g none p.tip := ⟨hahead, nofun⟩
      rw [heq] at hlisted
      exact absurd .refl (hlisted.2 old rfl)
  | some x =>
      obtain ⟨q, hq, rfl⟩ := (hs.askable_of_packed hc).2 x rfl
      obtain ⟨d, hdline, hpeels⟩ := (hs.onLine q hq).peels
      rw [hs.linear.listed_eq htipline hpeels] at heq
      obtain rfl :=
        hs.linear.eq_of_listed_eq hs.acyclic hdline holdline htipline hahead hne heq
      exact ⟨q.tip, rfl, hpeels.commitCount_eq⟩

/-- **A pack that is rebuilt is not hidden.** -/
theorem unhidden_of_exists_packed (hp : p ∈ F) (hold : p.have_ = some old)
    (h : ∃ c ∈ packed clone state, listed g c.1 c.2 = p.objects g) : Unhidden g F old p.tip := by
  obtain ⟨c, hc, heq⟩ := h
  obtain ⟨x, rfl, hcount⟩ := hs.packed_of_listed hp hold hc heq
  obtain ⟨l₁, l₂, hsplit⟩ := mem_packCandidates_some.mp hc
  have hsplit : (sortedTips clone state).map (·.tip) = l₁ ++ x :: p.tip :: l₂ := hsplit
  have hsorted := hs.sortedTips_before
  rw [hsplit] at hsorted
  intro q hq
  have hmem := hs.mem_sortedTips_iff.mpr ⟨q, hq, rfl⟩
  rw [hsplit] at hmem
  have hlt := hs.count_lt hp hold
  rcases outside_of_neighbours hsorted hmem with hbefore | hafter
  · have hle : commitCount g q.tip ≤ commitCount g old := by
      rw [← hcount]
      rcases hbefore with h | h
      · rw [h]
      · exact h.count_le
    exact ⟨fun h => hle.not_gt h.1, fun h => (hle.trans_lt hlt).ne h.1⟩
  · have hnot : ¬ commitCount g q.tip < commitCount g p.tip ∧
        ¬ (commitCount g q.tip = commitCount g p.tip ∧ compare q.tip p.tip = .lt) := by
      rcases hafter with h | h
      · rw [h]
        exact Before.not_between (.inr ⟨rfl, Std.ReflCmp.isLE_rfl⟩)
      · exact h.not_between
    exact ⟨fun h => hnot.1 h.2, hnot.2⟩

/-- **A state is covered if and only if no pack is hidden.** -/
theorem covered_iff : Covered cr clone F state ↔ Clear g F := by
  constructor
  · intro hcov p hp packHash sizeBytes hb old hold
    obtain ⟨r, hr⟩ := hs.advertises.indexed p hp
    obtain ⟨q, hq, hqb, hqid⟩ := hs.advertises.records _ r hr
    have hpq : p.bundle = q.bundle :=
      ObjectBundle.id_inj hs.reproducible.ids ⟨p, hp, rfl⟩ ⟨q, hq, rfl⟩ hqid.symm
    obtain ⟨p', hp', hp'b, hmap⟩ := hcov _ r packHash sizeBytes hr (by rw [← hqb, ← hpq, hb])
    have hpack : p'.pack = p.pack :=
      hs.reproducible.contents p' hp' p hp (hp'b.trans (hqb.symm.trans hpq.symm))
    rw [hpack, (hs.onLine p hp).single packHash sizeBytes hb] at hmap
    exact hs.unhidden_of_exists_packed hp hold ((hs.buildLocalPackMap_eq_pack_iff hp).mp hmap)
  · intro hclear id r packHash sizeBytes hr hb
    obtain ⟨p, hp, hpb, -⟩ := hs.advertises.records id r hr
    have hsingle : p.bundle = .singlePack packHash sizeBytes := hpb.trans hb
    refine ⟨p, hp, hpb, ?_⟩
    rw [(hs.onLine p hp).single packHash sizeBytes hsingle]
    refine (hs.buildLocalPackMap_eq_pack_iff hp).mpr ?_
    cases hold : p.have_ with
    | none => exact hs.exists_packed_of_whole hp hold
    | some old =>
        exact hs.exists_packed_of_unhidden hp hold (hclear p hp packHash sizeBytes hsingle old hold)

end LinearState

section

variable {branch : RefName} {params : RepoParams} {key : SigningKey}
  {name description defaultBranch : String} {s₀ : RepoState}
  {tr : List (Transition RepoState PushCall)}

/-- **Runs of pushes along a line** reach such states. -/
theorem run_linearState
    (h₀ : initialRepoState cr params key name description defaultBranch = some s₀)
    (hrun : Run (OwnerPush cr params key) s₀ tr state) (hl : LinearHistory g line)
    (hpush : ∀ t ∈ tr, LinearPush g line branch t)
    (hd : Reproducible g packOf cr clone (publications cr params key tr)) :
    LinearState g line packOf cr clone (publications cr params key tr) state where
  reproducible := hd
  linear := hl
  onLine := onLine_of_mem hl hpush
  leaves := run_leavesPublished h₀ hrun
  advertises := run_advertises h₀ hrun

/-- **After any run of pushes along a line**, the clone has the pack of every single-pack
bundle if and only if no pack is hidden. -/
theorem local_packs_cover_iff
    (h₀ : initialRepoState cr params key name description defaultBranch = some s₀)
    (hrun : Run (OwnerPush cr params key) s₀ tr state) (hl : LinearHistory g line)
    (hpush : ∀ t ∈ tr, LinearPush g line branch t)
    (hd : Reproducible g packOf cr clone (publications cr params key tr)) :
    Covered cr clone (publications cr params key tr) state ↔
      Clear g (publications cr params key tr) :=
  (run_linearState h₀ hrun hl hpush hd).covered_iff

end

/-- Fewer publications need less. -/
theorem Askable.mono {F' : List Publication} (h : Askable F c) (hsub : F ⊆ F') : Askable F' c := by
  obtain ⟨⟨p, hp, ht⟩, hleft⟩ := h
  refine ⟨⟨p, hsub hp, ht⟩, fun x hx => ?_⟩
  obtain ⟨q, hq, hqx⟩ := hleft x hx
  exact ⟨q, hsub hq, hqx⟩

theorem Reproducible.mono {F' : List Publication} (hd : Reproducible g packOf cr clone F')
    (hsub : F ⊆ F') : Reproducible g packOf cr clone F where
  acyclic := hd.acyclic
  packs p hp := hd.packs p (hsub hp)
  ranges c hc := hd.ranges c (hc.mono hsub)
  counts t := fun ⟨p, hp, ht⟩ => hd.counts t ⟨p, hsub hp, ht⟩
  hashes := hd.hashes.mono (by
    rintro _ ⟨c, hc, rfl⟩
    exact ⟨c, hc.mono hsub, rfl⟩)
  ids := hd.ids.mono (by
    rintro _ ⟨p, hp, rfl⟩
    exact ⟨p, hsub hp, rfl⟩)
  contents p hp q hq := hd.contents p (hsub hp) q (hsub hq)

end

/-! The owner pushes the first commit of three and then the last one; a tag of the commit
between them hides the second pack. -/

/-- A clone of the graph. -/
noncomputable def refClone (g : ObjectGraph) (packOf : Set CommitHash → Bytes) : CloneGit where
  revListCount s :=
    match parseSha1 s with
    | .ok t => .ok (commitCount g t)
    | .error _ => .error s
  revPack have_ want :=
    match parseSha1 want with
    | .ok t => .ok (packOf (listed g (have_.bind fun s => (parseSha1 s).toOption) t))
    | .error _ => .error want

section

variable {g : ObjectGraph} {packOf : Set CommitHash → Bytes}

theorem refClone_revListCount (t : CommitHash) :
    (refClone g packOf).revListCount (hexEncodeCommit t) = .ok (commitCount g t) := by
  simp only [refClone, hexEncodeCommit, parseSha1_hexEncode]

theorem refClone_revPack (c : Option CommitHash × CommitHash) :
    (refClone g packOf).revPack (c.1.map hexEncodeCommit) (hexEncodeCommit c.2) =
      .ok (packOf (listed g c.1 c.2)) := by
  have hbind : (c.1.map hexEncodeCommit).bind (fun s => (parseSha1 s).toOption) = c.1 := by
    cases c.1 with
    | none => rfl
    | some h => exact congrArg Except.toOption (parseSha1_hexEncode h)
  simp only [refClone, hbind, hexEncodeCommit, parseSha1_hexEncode]

end

namespace Sample

def v1 : RefName := "refs/tags/v1"

/-- The states after the second push and the third. -/
def pushedThree : RepoState :=
  mergeState pushedOne (pushDelta main 3 6 (seenSeq pushedOne main + 1))

def taggedTwo : RepoState := mergeState pushedThree (pushDelta v1 2 3 (seenSeq pushedThree v1 + 1))

def pushThree : PushCall := onePush "refs/heads/main:refs/heads/main" 3 6

def tagTwo : PushCall := onePush "refs/tags/v1:refs/tags/v1" 2 3

def lineTrace : List (Transition RepoState PushCall) :=
  [⟨created, pushOne, pushedOne⟩, ⟨pushedOne, pushThree, pushedThree⟩]

def tagTrace : List (Transition RepoState PushCall) :=
  lineTrace ++ [⟨pushedThree, tagTwo, taggedTwo⟩]

def linePublications : List Publication :=
  [⟨sha 1, none, packOf 1, bundleOf 1⟩, ⟨sha 3, some (sha 1), packOf 6, bundleOf 6⟩]

def tagPublications : List Publication :=
  linePublications ++ [⟨sha 2, none, packOf 3, bundleOf 3⟩]

def commitBits (one two three : Bool) : UInt8 := cond one 1 0 + cond two 2 0 + cond three 4 0

open Classical in
/-- A pack of the three commits, by the commits in it. -/
noncomputable def packOfLine (S : Set CommitHash) : Bytes :=
  packOf (commitBits (sha 1 ∈ S) (sha 2 ∈ S) (sha 3 ∈ S))

noncomputable def lineClone : CloneGit := refClone lineGraph packOfLine

/-! ### The packs -/

theorem mem_tagPublications {p : Publication} : p ∈ tagPublications ↔
    p = ⟨sha 1, none, packOf 1, bundleOf 1⟩ ∨ p = ⟨sha 3, some (sha 1), packOf 6, bundleOf 6⟩ ∨
      p = ⟨sha 2, none, packOf 3, bundleOf 3⟩ := by
  simp only [tagPublications, linePublications, List.cons_append, List.nil_append, List.mem_cons,
    List.not_mem_nil, or_false]

/-- The pairs that may be packed name commits of the line. -/
theorem line_of_askable {c : Option CommitHash × CommitHash} (h : Askable tagPublications c) :
    c.2 ∈ line ∧ ∀ x ∈ c.1, x ∈ line := by
  have hadv : ∀ t, Advertised tagPublications t → t ∈ line := by
    rintro t ⟨p, hp, rfl⟩
    rcases mem_tagPublications.mp hp with rfl | rfl | rfl
    · exact .inl rfl
    · exact .inr (.inr rfl)
    · exact .inr (.inl rfl)
  exact ⟨hadv _ h.1, fun x hx => hadv x (h.2 x hx)⟩

/-- The tree is listed with the first commit: in a whole pack only. -/
theorem zero_mem_listed {c : Option CommitHash × CommitHash} (h : Askable tagPublications c) :
    sha 0 ∈ listed lineGraph c.1 c.2 ↔ sha 1 ∈ listed lineGraph c.1 c.2 := by
  obtain ⟨hwant, hleft⟩ := line_of_askable h
  have h₀ : ∀ {t}, t ∈ line → Reach lineGraph t (sha 0) :=
    fun ht => reach_of_reach_one ht (reach_one.mpr (.inr rfl))
  have h₁ : ∀ {t}, t ∈ line → Reach lineGraph t (sha 1) :=
    fun ht => reach_of_reach_one ht .refl
  constructor
  · exact fun ⟨_, hnot⟩ => ⟨h₁ hwant, fun x hx => absurd (h₀ (hleft x hx)) (hnot x hx)⟩
  · exact fun ⟨_, hnot⟩ => ⟨h₀ hwant, fun x hx => absurd (h₁ (hleft x hx)) (hnot x hx)⟩

/-- Nothing else is listed. -/
theorem of_mem_listed {c : Option CommitHash × CommitHash} {o : CommitHash}
    (h : Askable tagPublications c) (ho : o ∈ listed lineGraph c.1 c.2) : o = sha 0 ∨ o ∈ line := by
  obtain ⟨hr, -⟩ := ho
  rcases mem_line.mp (line_of_askable h).1 with hc | hc | hc <;> rw [hc] at hr
  · rcases reach_one.mp hr with rfl | rfl
    · exact .inr (.inl rfl)
    · exact .inl rfl
  · rcases reach_two.mp hr with rfl | rfl | rfl
    · exact .inr (.inr (.inl rfl))
    · exact .inl rfl
    · exact .inr (.inl rfl)
  · rcases reach_three.mp hr with rfl | rfl | rfl | rfl
    · exact .inr (.inr (.inr rfl))
    · exact .inl rfl
    · exact .inr (.inr (.inl rfl))
    · exact .inr (.inl rfl)

theorem hash_packOf_inj {m n : UInt8} (h : hash (packOf m) = hash (packOf n)) : m = n := by
  have h := congrArg (fun v : Vector UInt8 32 => v[31]) h
  simpa [hash, packOf] using h

theorem commitBits_inj : ∀ {a b c a' b' c' : Bool}, commitBits a b c = commitBits a' b' c' →
    a = a' ∧ b = b' ∧ c = c' := by decide

/-- The hash of a pack tells the commits in it. -/
theorem mem_iff_of_hash {S T : Set CommitHash} (h : hash (packOfLine S) = hash (packOfLine T))
    {c : CommitHash} (hc : c ∈ line) : c ∈ S ↔ c ∈ T := by
  obtain ⟨h₁, h₂, h₃⟩ := commitBits_inj (hash_packOf_inj h)
  rcases mem_line.mp hc with rfl | rfl | rfl
  · exact decide_eq_decide.mp h₁
  · exact decide_eq_decide.mp h₂
  · exact decide_eq_decide.mp h₃

theorem packOfLine_eq {S : Set CommitHash} {one two three : Bool} (h₁ : sha 1 ∈ S ↔ one = true)
    (h₂ : sha 2 ∈ S ↔ two = true) (h₃ : sha 3 ∈ S ↔ three = true) :
    packOfLine S = packOf (commitBits one two three) := by
  simp only [packOfLine, h₁, h₂, h₃, Bool.decide_eq_true]

/-- A pack is that of the objects it was published for. -/
theorem tag_packs {p : Publication} (hp : p ∈ tagPublications) :
    p.pack = packOfLine (p.objects lineGraph) := by
  have h₁₂ : ¬ Reach lineGraph (sha 1) (sha 2) := by
    rw [reach_one]
    decide
  have h₁₃ : ¬ Reach lineGraph (sha 1) (sha 3) := by
    rw [reach_one]
    decide
  have h₂₃ : ¬ Reach lineGraph (sha 2) (sha 3) := by
    rw [reach_two]
    decide
  rcases mem_tagPublications.mp hp with rfl | rfl | rfl
  · refine (@packOfLine_eq _ true false false ?_ ?_ ?_).symm
    · exact iff_of_true ⟨.refl, nofun⟩ rfl
    · exact iff_of_false (fun h => h₁₂ h.1) nofun
    · exact iff_of_false (fun h => h₁₃ h.1) nofun
  · refine (@packOfLine_eq _ false true true ?_ ?_ ?_).symm
    · exact iff_of_false (fun h => h.2 (sha 1) rfl .refl) nofun
    · refine iff_of_true ⟨reach_three.mpr (.inr (.inr (.inl rfl))), fun x hx => ?_⟩ rfl
      cases Option.mem_some_iff.mp hx
      exact h₁₂
    · refine iff_of_true ⟨.refl, fun x hx => ?_⟩ rfl
      cases Option.mem_some_iff.mp hx
      exact h₁₃
  · refine (@packOfLine_eq _ true true false ?_ ?_ ?_).symm
    · exact iff_of_true ⟨reach_two.mpr (.inr (.inr rfl)), nofun⟩ rfl
    · exact iff_of_true ⟨.refl, nofun⟩ rfl
    · exact iff_of_false (fun h => h₂₃ h.1) nofun

/-- What may be listed is told apart by the hash of its pack. -/
theorem tag_hashes : {S | ∃ c, Askable tagPublications c ∧ S = listed lineGraph c.1 c.2}.InjOn
    fun S => hash (packOfLine S) := by
  rintro _ ⟨c, hc, rfl⟩ _ ⟨d, hd, rfl⟩ h
  have hline : ∀ {o}, o ∈ line → (o ∈ listed lineGraph c.1 c.2 ↔ o ∈ listed lineGraph d.1 d.2) :=
    fun ho => mem_iff_of_hash h ho
  have hzero : sha 0 ∈ listed lineGraph c.1 c.2 ↔ sha 0 ∈ listed lineGraph d.1 d.2 := by
    rw [zero_mem_listed hc, zero_mem_listed hd]
    exact hline (.inl rfl)
  ext o
  constructor
  · intro ho
    rcases of_mem_listed hc ho with rfl | hl
    · exact hzero.mp ho
    · exact (hline hl).mp ho
  · intro ho
    rcases of_mem_listed hd ho with rfl | hl
    · exact hzero.mpr ho
    · exact (hline hl).mpr ho

/-- **The packs of the three pushes** can be reproduced in the clone. -/
theorem tag_reproducible :
    Reproducible lineGraph packOfLine signerCrypto lineClone tagPublications where
  acyclic := line_acyclic
  packs _ hp := tag_packs hp
  ranges c _ := refClone_revPack c
  counts t _ := refClone_revListCount t
  hashes := tag_hashes
  ids := by
    rintro _ ⟨p, hp, rfl⟩ _ ⟨q, hq, rfl⟩ h
    rcases mem_tagPublications.mp hp with rfl | rfl | rfl <;>
      rcases mem_tagPublications.mp hq with rfl | rfl | rfl <;>
      first | rfl | exact absurd h (by decide)
  contents p hp q hq h := by
    rcases mem_tagPublications.mp hp with rfl | rfl | rfl <;>
      rcases mem_tagPublications.mp hq with rfl | rfl | rfl <;>
      first | rfl | exact absurd h (by decide)

/-! ### The run -/

theorem pushedThree_v1 : pushedThree.refs[v1]? = none := by
  rw [pushedThree, pushed_other (by decide), pushedOne, pushed_other (by decide)]
  exact Std.ExtTreeMap.getElem?_empty

theorem pushedThree_accepted : Accepted signerCrypto params pushedThree :=
  push_accepted (by decide) pushedOne_accepted rfl

theorem tag_spec : parsePushSpec "refs/tags/v1:refs/tags/v1" = .ok (false, v1, v1) := by decide

theorem line_run : Run (OwnerPush signerCrypto params signerKey) created lineTrace pushedThree :=
  run_sent pushOne_run (push_sent (k := 6) pushPair_spec rfl (by decide)
    (by rw [pushedOne_main]; decide) pushedOne_accepted rfl)

theorem tag_run : Run (OwnerPush signerCrypto params signerKey) created tagTrace taggedTwo :=
  run_sent line_run (push_sent (k := 3) tag_spec rfl (by decide) (by rw [pushedThree_v1]; nofun)
    pushedThree_accepted rfl)

theorem line_publications :
    publications signerCrypto params signerKey lineTrace = linePublications := by
  have hthree : pushThree.publications signerCrypto params signerKey pushedOne =
      [⟨sha 3, some (sha 1), packOf 6, bundleOf 6⟩] := by
    refine (push_publications pushPair_spec rfl (by decide) ?_ pushedOne_accepted rfl).trans ?_
    · rw [pushedOne_main]
      decide
    · rw [pushedOne_main]
  rw [publications, lineTrace, List.flatMap_cons, List.flatMap_singleton, pushOne_publications,
    hthree]
  rfl

theorem tag_publications :
    publications signerCrypto params signerKey tagTrace = tagPublications := by
  have htag : tagTwo.publications signerCrypto params signerKey pushedThree =
      [⟨sha 2, none, packOf 3, bundleOf 3⟩] := by
    refine (push_publications tag_spec rfl (by decide) ?_ pushedThree_accepted rfl).trans ?_
    · rw [pushedThree_v1]
      nofun
    · rw [pushedThree_v1]
      rfl
  have hline := line_publications
  rw [publications] at hline
  rw [publications, tagTrace, List.flatMap_append, hline, List.flatMap_singleton, htag]
  rfl

/-- A push of the commit `n` alone. -/
theorem onePush_linear {state state' : RepoState} {spec src : String} {dst : RefName} {force : Bool}
    {n k : UInt8} (hspec : parsePushSpec spec = .ok (force, src, dst))
    (h : (dst = main ∧ sha n ∈ line ∧ ∀ e, state.refs[dst]? = some e →
        e.target ∈ line ∧ Reach lineGraph (sha n) e.target) ∨
      ((∃ c ∈ line, PeelsTo lineGraph (sha n) c) ∧
        ∀ e, state.refs[dst]? = some e → e.target = sha n)) :
    LinearPush lineGraph line main ⟨state, onePush spec n k, state'⟩ where
  specs spec' hspec' := by
    cases List.mem_singleton.mp hspec'
    intro force' src' dst' newTarget hparse hresolve
    cases hspec.symm.trans hparse
    cases hresolve
    exact ⟨sha n, rfl, h⟩
  chunked pack b hb := by cases hb

theorem line_pushes : ∀ t ∈ lineTrace, LinearPush lineGraph line main t := by
  have hone : LinearPush lineGraph line main ⟨created, pushOne, pushedOne⟩ := by
    refine onePush_linear pushPair_spec (.inl ⟨rfl, .inl rfl, fun e he => ?_⟩)
    rw [created_main] at he
    cases he
  have hthree : LinearPush lineGraph line main ⟨pushedOne, pushThree, pushedThree⟩ := by
    refine onePush_linear pushPair_spec (.inl ⟨rfl, .inr (.inr rfl), fun e he => ?_⟩)
    have htarget := pushedOne_main
    rw [he, Option.map_some, Option.some.injEq] at htarget
    rw [htarget]
    exact ⟨.inl rfl, reach_three.mpr (.inr (.inr (.inr rfl)))⟩
  intro t ht
  rcases List.mem_cons.mp ht with rfl | ht
  · exact hone
  · cases List.mem_singleton.mp ht
    exact hthree

theorem tag_pushes : ∀ t ∈ tagTrace, LinearPush lineGraph line main t := by
  have htag : LinearPush lineGraph line main ⟨pushedThree, tagTwo, taggedTwo⟩ := by
    have htwo : sha 2 ∈ line := .inr (.inl rfl)
    refine onePush_linear tag_spec
      (.inr ⟨⟨sha 2, htwo, .commit (isCommit_iff.mpr htwo)⟩, fun e he => ?_⟩)
    rw [pushedThree_v1] at he
    cases he
  intro t ht
  rcases List.mem_append.mp ht with ht | ht
  · exact line_pushes t ht
  · cases List.mem_singleton.mp ht
    exact htag

/-- Of the first two pushes nothing is hidden. -/
theorem line_clear : Clear lineGraph linePublications := by
  have hlt : commitCount lineGraph (sha 1) < commitCount lineGraph (sha 3) :=
    line_linear.commitCount_lt line_acyclic (.inr (.inr rfl))
      (reach_three.mpr (.inr (.inr (.inr rfl)))) (by decide)
  intro p hp packHash sizeBytes _ old hold q hq
  simp only [linePublications, List.mem_cons, List.not_mem_nil, or_false] at hp hq
  rcases hp with rfl | rfl
  · cases hold
  · cases Option.mem_some_iff.mp hold
    rcases hq with rfl | rfl
    · exact ⟨fun h => lt_irrefl _ h.1, fun h => hlt.ne h.1⟩
    · exact ⟨fun h => lt_irrefl _ h.2,
        fun h => Std.OrientedCmp.not_lt_of_isLE Std.ReflCmp.isLE_rfl h.2⟩

/-- The tag hides the second pack. -/
theorem tag_not_clear : ¬ Clear lineGraph tagPublications := by
  intro h
  have htwo : sha 2 ∈ line := .inr (.inl rfl)
  have hmem : ⟨sha 3, some (sha 1), packOf 6, bundleOf 6⟩ ∈ tagPublications :=
    mem_tagPublications.mpr (.inr (.inl rfl))
  have htag : ⟨sha 2, none, packOf 3, bundleOf 3⟩ ∈ tagPublications :=
    mem_tagPublications.mpr (.inr (.inr rfl))
  refine (h _ hmem _ _ rfl (sha 1) rfl _ htag).1 ⟨?_, ?_⟩
  · exact line_linear.commitCount_lt line_acyclic htwo (reach_of_reach_one htwo .refl) (by decide)
  · exact line_linear.commitCount_lt line_acyclic (.inr (.inr rfl))
      (reach_three.mpr (.inr (.inr (.inl rfl)))) (by decide)

end Sample

/-- After the first two pushes the clone has both packs. -/
theorem local_packs_cover_line :
    Covered Sample.signerCrypto Sample.lineClone
      (publications Sample.signerCrypto Sample.params Sample.signerKey Sample.lineTrace)
      Sample.pushedThree := by
  have hd : Reproducible Sample.lineGraph Sample.packOfLine Sample.signerCrypto Sample.lineClone
      (publications Sample.signerCrypto Sample.params Sample.signerKey Sample.lineTrace) := by
    rw [Sample.line_publications]
    exact Sample.tag_reproducible.mono (List.sublist_append_left _ _).subset
  have hclear : Clear Sample.lineGraph
      (publications Sample.signerCrypto Sample.params Sample.signerKey Sample.lineTrace) := by
    rw [Sample.line_publications]
    exact Sample.line_clear
  exact (local_packs_cover_iff Sample.created_eq Sample.line_run Sample.line_linear
    Sample.line_pushes hd).mpr hclear

/-- The owner tagged the commit between the two: the clone has no pack for a bundle. -/
theorem local_packs_tagged :
    initialRepoState Sample.signerCrypto Sample.params Sample.signerKey "" "" Sample.main =
      some Sample.created ∧
    Run (OwnerPush Sample.signerCrypto Sample.params Sample.signerKey) Sample.created
      Sample.tagTrace Sample.taggedTwo ∧
    LinearHistory Sample.lineGraph Sample.line ∧
    (∀ t ∈ Sample.tagTrace, LinearPush Sample.lineGraph Sample.line Sample.main t) ∧
    Reproducible Sample.lineGraph Sample.packOfLine Sample.signerCrypto Sample.lineClone
      (publications Sample.signerCrypto Sample.params Sample.signerKey Sample.tagTrace) ∧
    ¬ Covered Sample.signerCrypto Sample.lineClone
      (publications Sample.signerCrypto Sample.params Sample.signerKey Sample.tagTrace)
      Sample.taggedTwo := by
  have hd : Reproducible Sample.lineGraph Sample.packOfLine Sample.signerCrypto Sample.lineClone
      (publications Sample.signerCrypto Sample.params Sample.signerKey Sample.tagTrace) := by
    rw [Sample.tag_publications]
    exact Sample.tag_reproducible
  refine ⟨Sample.created_eq, Sample.tag_run, Sample.line_linear, Sample.tag_pushes, hd, fun h => ?_⟩
  have hclear := (run_linearState Sample.created_eq Sample.tag_run Sample.line_linear
    Sample.tag_pushes hd).covered_iff.mp h
  rw [Sample.tag_publications] at hclear
  exact Sample.tag_not_clear hclear

end FreenetGit
