/-
# `FreenetGit.LineFetch` — fetches along a line of history

Where every pack leaves out what an earlier commit of one line reaches, the packs that a
fetch asks for suffice (`packsSuffice_of_oneLine`): a commit that the others leave out is
met, and is asked for unless one of them holds it, and then that one leaves out less.  So
every fetch completes after any run that moves one branch forward along a line of commits
and adds tags of them (`fetch_along_line`).
-/
import FreenetGit.Reconstruct

namespace FreenetGit

open Lib

/-! ## One line of tips -/

/-- Of two published tips that `t` reaches, one reaches the other, and each of their packs leaves
out what a published commit reaches that is behind its tip. -/
structure OneLine (g : ObjectGraph) (F : List Publication) (t : CommitHash) : Prop where
  linear : ∀ p ∈ F, ∀ q ∈ F, Reach g t p.tip → Reach g t q.tip →
    Reach g p.tip q.tip ∨ Reach g q.tip p.tip
  ahead : ∀ p ∈ F, Reach g t p.tip → ∀ h ∈ p.have_, Advertised F h ∧
    ∃ co, PeelsIn g Set.univ p.tip co ∧ ∃ a ∈ co.parents, History g a h

section

variable {g : ObjectGraph} {F : List Publication} {L W : Set CommitHash} {f h a o t : CommitHash}
  {co : CommitObject}

/-- What is behind a parent of a commit does not reach what peels to the commit. -/
theorem not_reach_of_behind (hacyclic : ∀ a, ∀ b ∈ (g a).links, ¬ Reach g b a)
    (hpeels : PeelsIn g Set.univ f co) (ha : a ∈ co.parents) (hh : History g a h) :
    ¬ Reach g h f := by
  intro hr
  obtain ⟨x, hfx, hx⟩ := hpeels.exists_commit
  refine hacyclic x a ?_ ((hh.reach.trans hr).trans hfx.reach)
  rw [hx]
  exact List.mem_cons_of_mem _ ha

/-- **What a pack leaves out is met**: from a commit whose objects are there, but for those that
the earlier `h` reaches, a walk comes to `h`. -/
theorem Met.to_behind (hacyclic : ∀ a, ∀ b ∈ (g a).links, ¬ Reach g b a)
    (hparents : ∀ c co, Reach g f c → g c = .commit co →
      ∀ p ∈ co.parents, ∃ co', g p = .commit co')
    (hpeels : PeelsIn g Set.univ f co) (ha : a ∈ co.parents) (hh : History g a h)
    (hL : ∀ x, Reach g f x → ¬ Reach g h x → x ∈ L) (hmet : Met g L W f) : Met g L W h := by
  have hpath : ∀ b, History g b h → Reach g f b → (∃ cb, g b = .commit cb) → Met g L W b →
      Met g L W h := by
    intro b hb
    induction hb using Relation.ReflTransGen.head_induction_on with
    | refl => exact fun _ _ hm => hm
    | @head b c hbc hch ih =>
        rintro hfb ⟨cb, hcb⟩ hm
        rw [hcb] at hbc
        have hlink : c ∈ (g b).links := by
          rw [hcb]
          exact List.mem_cons_of_mem _ hbc
        have hb : b ∈ L := hL b hfb fun hr => hacyclic b c hlink ((History.reach hch).trans hr)
        exact ih (hfb.tail hlink) (hparents b cb hfb hcb c hbc) (hm.parent (.commit hb hcb) hbc)
  have hlocal : PeelsIn g L f co := hpeels.of_reach fun x hx hxp =>
    hL x hx (not_reach_of_behind hacyclic hxp ha hh)
  have hfa : Reach g f a := History.reach (hpeels.history ha)
  obtain ⟨x, hfx, hx⟩ := hpeels.exists_commit
  exact hpath a hh hfa (hparents x co hfx.reach hx a ha) (hmet.parent hlocal ha)

/-- What is behind something, with nothing else that reaches it. -/
theorem wellFounded_behind (hacyclic : ∀ a, ∀ b ∈ (g a).links, ¬ Reach g b a) :
    WellFounded fun a b : CommitHash => Reach g b a ∧ a ≠ b := by
  have htrans : IsTrans CommitHash fun a b => Reach g b a ∧ a ≠ b := by
    refine ⟨fun a b c hab hbc => ⟨hbc.1.trans hab.1, ?_⟩⟩
    rintro rfl
    exact hab.2 (eq_of_reach hacyclic hbc.1 hab.1)
  have hirrefl : Std.Irrefl fun a b : CommitHash => Reach g b a ∧ a ≠ b := ⟨fun a h => h.2 rfl⟩
  exact Finite.wellFounded_of_trans_of_irrefl _

end

section

variable {D : Type} {g : ObjectGraph} {packObjects : Bytes → Set CommitHash}
  {git : Git D} {local_ : D → Set CommitHash} {net : Nat → ObjectBundle → Except String Bytes}
  {cr : Crypto} {state : RepoState} {F : List Publication} {t f o : CommitHash} {n : String} {db : D}
  {bundleTips : List (ObjectBundleId × CommitHash)} {k : Nat}

/-- On one line, the pack for a published commit is that of a publication. -/
theorem OneLine.tipPack_eq (hline : OneLine g F t) (ha : Advertises cr F state)
    (hd : Delivered g packObjects git local_ net cr F)
    (hperm : bundleTips.Perm (collectBundleTipExtensions state).toList) (hf : Advertised F f)
    (htf : Reach g t f) :
    ∃ p ∈ F, p.tip = f ∧ tipPack g cr F bundleTips f = p.objects g := by
  obtain ⟨p, hp, rfl⟩ := hf
  have hmem : p.tip ∈ p.objects g := by
    refine ⟨.refl, fun h hh => ?_⟩
    obtain ⟨-, co, hpeels, a, hpar, hah⟩ := hline.ahead p hp htf h hh
    exact not_reach_of_behind hd.acyclic hpeels hpar hah
  exact ha.exists_tipPack hd hperm hp hmem

/-- What no pack so far holds, each pack leaves out with a commit behind its own; that commit is
met. -/
theorem OneLine.exists_behind (hline : OneLine g F t) (ha : Advertises cr F state)
    (hd : Delivered g packObjects git local_ net cr F)
    (hperm : bundleTips.Perm (collectBundleTipExtensions state).toList)
    (hf : f ∈ asked g (tipPack g cr F bundleTips) t k) (hadv : Advertised F f) (ho : Reach g f o)
    (hno : o ∉ Held (tipPack g cr F bundleTips) (asked g (tipPack g cr F bundleTips) t k)) :
    ∃ h, Advertised F h ∧ Reach g f h ∧ h ≠ f ∧ Reach g h o ∧
      Met g (Held (tipPack g cr F bundleTips) (asked g (tipPack g cr F bundleTips) t k))
        (asked g (tipPack g cr F bundleTips) t k) h ∧
      ∀ x ∈ tipPack g cr F bundleTips f, ¬ Reach g h x := by
  have htf : Reach g t f := History.reach (asked_history hf)
  obtain ⟨p, hp, rfl, hpack⟩ := hline.tipPack_eq ha hd hperm hadv htf
  have hheld : ∀ x ∈ p.objects g,
      x ∈ Held (tipPack g cr F bundleTips) (asked g (tipPack g cr F bundleTips) t k) :=
    fun x hx => ⟨p.tip, hf, hpack ▸ hx⟩
  obtain ⟨h, hh, hho⟩ : ∃ h ∈ p.have_, Reach g h o := by
    by_contra hn
    exact hno (hheld o ⟨ho, fun h hh hho => hn ⟨h, hh, hho⟩⟩)
  obtain ⟨hadvh, co, hpeels, a, hpar, hah⟩ := hline.ahead p hp htf h hh
  have hback := not_reach_of_behind hd.acyclic hpeels hpar hah
  have hreach : Reach g p.tip h := (History.reach (hpeels.history hpar)).trans hah.reach
  refine ⟨h, hadvh, hreach, fun heq => hback (heq ▸ .refl), hho, ?_, ?_⟩
  · refine Met.to_behind hd.acyclic (hd.parents p hp) hpeels hpar hah (fun x hx hxh => ?_)
      (.want hf)
    refine hheld x ⟨hx, fun h' hh' => ?_⟩
    exact Option.mem_unique hh hh' ▸ hxh
  · intro x hx
    rw [hpack] at hx
    exact hx.2 h hh

/-- **Along one line the packs suffice.** -/
theorem packsSuffice_of_oneLine (hline : OneLine g F t) (ha : Advertises cr F state)
    (hd : Delivered g packObjects git local_ net cr F)
    (hperm : bundleTips.Perm (collectBundleTipExtensions state).toList) (ht : Advertised F t) :
    PacksSuffice g (tipPack g cr F bundleTips) t := by
  intro o ho
  by_contra hnever
  have hno := not_exists.mp hnever
  have hwf := wellFounded_behind hd.acyclic
  -- the last published commit that is asked for and reaches the object
  obtain ⟨f, ⟨⟨k, hf⟩, hadv, hfo⟩, hlast⟩ := hwf.has_min
    {f | (∃ k, f ∈ asked g (tipPack g cr F bundleTips) t k) ∧ Advertised F f ∧ Reach g f o}
    ⟨t, ⟨0, rfl⟩, ht, ho⟩
  obtain ⟨h₀, hadv₀, hfh₀, hne₀, hho₀, hmet₀, -⟩ :=
    hline.exists_behind ha hd hperm hf hadv hfo (hno k)
  -- of the commits behind it that are met, the last one
  obtain ⟨h, ⟨hadvh, hho, hfh, hne, hmet⟩, hleast⟩ := hwf.has_min
    {h | Advertised F h ∧ Reach g h o ∧ Reach g f h ∧ h ≠ f ∧
      Met g (Held (tipPack g cr F bundleTips) (asked g (tipPack g cr F bundleTips) t k))
        (asked g (tipPack g cr F bundleTips) t k) h} ⟨h₀, hadv₀, hho₀, hfh₀, hne₀, hmet₀⟩
  by_cases hheld : h ∈ Held (tipPack g cr F bundleTips) (asked g (tipPack g cr F bundleTips) t k)
  · -- the pack that holds it leaves out what is behind it on the line
    obtain ⟨f', hf', hhf'⟩ := hheld
    obtain ⟨q, -, hid, -⟩ := mem_tipPack.mp hhf'
    obtain ⟨p, hp, rfl, hpack⟩ := ha.tipPack_of_lookup hd hperm hid
    have hf'h : Reach g p.tip h := (hpack ▸ hhf').1
    obtain ⟨h', hadv', hf'h', -, hho', hmet', hout⟩ :=
      hline.exists_behind ha hd hperm hf' ⟨p, hp, rfl⟩ (hf'h.trans hho) (hno k)
    have hnot : ¬ Reach g h' h := hout h hhf'
    have htf : Reach g t f := History.reach (asked_history hf)
    have htf' : Reach g t p.tip := History.reach (asked_history hf')
    obtain ⟨r, hr, rfl⟩ := hadvh
    obtain ⟨r', hr', rfl⟩ := hadv'
    have hhh' : Reach g r.tip r'.tip :=
      (hline.linear r hr r' hr' (htf.trans hfh) (htf'.trans hf'h')).resolve_right hnot
    refine hleast r'.tip ⟨⟨r', hr', rfl⟩, hho', hfh.trans hhh', ?_, hmet'⟩ ⟨hhh', ?_⟩
    · rintro rfl
      exact hnot hfh
    · rintro heq
      exact hnot (heq ▸ .refl)
  · exact hlast h ⟨⟨k + 1, .inr ⟨hmet, hheld⟩⟩, hadvh, hho⟩ ⟨hfh, hne⟩

end

/-! ## Fast-forwards of one branch -/

section

variable {g : ObjectGraph} {line : Set CommitHash} {cr : Crypto} {F : List Publication}
  {f h t : CommitHash}

/-- Between commits, what is reached is in the history: trees hold no commits. -/
theorem history_of_reach
    (htrees : ∀ c co, g c = .commit co → ∀ o, Reach g co.tree o → ¬ IsCommit g o)
    (hparents : ∀ c co, Reach g f c → g c = .commit co → ∀ p ∈ co.parents, IsCommit g p)
    (hf : IsCommit g f) (hh : IsCommit g h) (hr : Reach g f h) : History g f h := by
  have hfrom : ∀ b, Reach g b h → Reach g f b → IsCommit g b → History g b h := by
    intro b hb
    induction hb using Relation.ReflTransGen.head_induction_on with
    | refl => exact fun _ _ => .refl
    | @head b c hbc hch ih =>
        rintro hfb ⟨co, hco⟩
        have hfc := hfb.tail hbc
        rw [hco] at hbc
        rcases List.mem_cons.mp hbc with rfl | hc
        · exact absurd hh (htrees b co hco h hch)
        · refine .head ?_ (ih hfc (hparents b co hfb hco c hc))
          rw [hco]
          exact hc
  exact hfrom f hr .refl hf

/-- What is behind a commit is behind one of its parents. -/
theorem exists_parent_of_reach
    (htrees : ∀ c co, g c = .commit co → ∀ o, Reach g co.tree o → ¬ IsCommit g o)
    (hparents : ∀ c co, Reach g f c → g c = .commit co → ∀ p ∈ co.parents, IsCommit g p)
    (hf : IsCommit g f) (hh : IsCommit g h) (hr : Reach g f h) (hne : h ≠ f) :
    ∃ co, PeelsIn g Set.univ f co ∧ ∃ a ∈ co.parents, History g a h := by
  obtain ⟨co, hco⟩ := hf
  rcases Relation.ReflTransGen.cases_head (history_of_reach htrees hparents ⟨co, hco⟩ hh hr) with
    heq | ⟨a, ha, hah⟩
  · exact absurd heq.symm hne
  · rw [hco] at ha
    exact ⟨co, .commit trivial hco, a, ha, hah⟩

/-- A tip of the line that is no tag is one of its commits. -/
theorem OnLine.tip_mem_line {p : Publication} (hp : OnLine g line cr p) (h : ¬ IsTag g p.tip) :
    p.tip ∈ line := by
  obtain ⟨c, hc, hpeels⟩ := hp.peels
  cases hpeels with
  | commit _ => exact hc
  | tag ht _ => exact absurd ⟨_, ht⟩ h

/-- From a commit of the line, the tips are on one line. -/
theorem oneLine_of_onLine (hline : LinearHistory g line)
    (htrees : ∀ c co, g c = .commit co → ∀ o, Reach g co.tree o → ¬ IsCommit g o)
    (hparents : ∀ p ∈ F, ∀ c co, Reach g p.tip c → g c = .commit co →
      ∀ q ∈ co.parents, IsCommit g q)
    (hon : ∀ p ∈ F, OnLine g line cr p) (hleaves : LeavesPublished F) (ht : t ∈ line) :
    OneLine g F t where
  linear p hp q hq htp htq :=
    hline.linear _ ((hon p hp).tip_mem_line (hline.tagless t ht _ htp)) _
      ((hon q hq).tip_mem_line (hline.tagless t ht _ htq))
  ahead p hp _ h hh := by
    obtain ⟨hmem, htip, hreach, hne⟩ := (hon p hp).ahead h hh
    exact ⟨hleaves p hp h hh, exists_parent_of_reach htrees (hparents p hp)
      (hline.commit _ htip) (hline.commit h hmem) hreach hne⟩

end

section

variable {D : Type} {g : ObjectGraph} {line : Set CommitHash} {branch : RefName}
  {packObjects : Bytes → Set CommitHash} {git : Git D} {local_ : D → Set CommitHash}
  {net : Nat → ObjectBundle → Except String Bytes} {cr : Crypto} {state : RepoState}
  {F : List Publication} {t : CommitHash} {bundleTips : List (ObjectBundleId × CommitHash)} {db : D}

/-- Off the line, a target was published whole. -/
theorem packsSuffice_of_notMem (ha : Advertises cr F state)
    (hd : Delivered g packObjects git local_ net cr F)
    (hperm : bundleTips.Perm (collectBundleTipExtensions state).toList)
    (hon : ∀ p ∈ F, OnLine g line cr p) (hadv : Advertised F t) (ht : t ∉ line) :
    PacksSuffice g (tipPack g cr F bundleTips) t := by
  obtain ⟨p, hp, rfl⟩ := hadv
  have hmem := (hon p hp).tip_mem fun _ _ => eq_of_reach hd.acyclic
  obtain ⟨q, hq, htip, hpack⟩ := ha.exists_tipPack hd hperm hp hmem
  refine packsSuffice_of_whole fun o ho => hpack ▸ ⟨htip ▸ ho, fun h hh => ?_⟩
  exact absurd (htip ▸ ((hon q hq).ahead h hh).2.1) ht

/-- **Fast-forwards of one branch can be fetched**: after any run that moves a branch forward
along a line of commits and adds tags of them, the fetch of every ref completes. -/
theorem fetch_along_line {params : RepoParams} {key : SigningKey}
    {name description defaultBranch : String} {s₀ : RepoState}
    {tr : List (Transition RepoState PushCall)} {n : RefName} {e : RefEntry}
    (h₀ : initialRepoState cr params key name description defaultBranch = some s₀)
    (hrun : Run (OwnerPush cr params key) s₀ tr state) (hline : LinearHistory g line)
    (htrees : ∀ c co, g c = .commit co → ∀ o, Reach g co.tree o → ¬ IsCommit g o)
    (hpush : ∀ t ∈ tr, LinearPush g line branch t)
    (hd : Delivered g packObjects git local_ net cr (publications cr params key tr))
    (href : state.refs[n]? = some e) (hempty : local_ db = ∅)
    (hperm : bundleTips.Perm (collectBundleTipExtensions state).toList) :
    FetchCompletes g git local_ net state db e.target n bundleTips := by
  have ha := run_advertises h₀ hrun
  have hadv : Advertised (publications cr params key tr) e.target := ha.refs n e href
  have hon : ∀ p ∈ publications cr params key tr, OnLine g line cr p := onLine_of_mem hline hpush
  refine fetchCompletes_of_suffice ha hd hadv hempty hperm ?_
  by_cases ht : e.target ∈ line
  · have hone := oneLine_of_onLine hline htrees hd.parents hon (run_leavesPublished h₀ hrun) ht
    exact packsSuffice_of_oneLine hone ha hd hperm hadv
  · exact packsSuffice_of_notMem ha hd hperm hon hadv ht

end

namespace Sample

theorem taggedTwo_main : (taggedTwo.refs[main]?).map (·.target) = some (sha 3) := by
  rw [taggedTwo, pushed_other (by decide), pushedThree,
    pushed_main (by rw [pushedOne_seq]; decide)]
  rfl

theorem line_parents {c : CommitHash} {co : CommitObject} (hc : lineGraph c = .commit co) :
    ∀ p ∈ co.parents, IsCommit lineGraph p := by
  intro p hp
  rcases isCommit_iff.mp ⟨co, hc⟩ with rfl | rfl | rfl
  · cases hc.symm.trans lineGraph_one
    cases hp
  · cases hc.symm.trans lineGraph_two
    cases List.mem_singleton.mp hp
    exact isCommit_iff.mpr (.inl rfl)
  · cases hc.symm.trans lineGraph_three
    cases List.mem_singleton.mp hp
    exact isCommit_iff.mpr (.inr (.inl rfl))

/-- The one tree is empty. -/
theorem line_trees {c o : CommitHash} {co : CommitObject} (hc : lineGraph c = .commit co)
    (ho : Reach lineGraph co.tree o) : ¬ IsCommit lineGraph o := by
  have htree : co.tree = sha 0 := by
    rcases isCommit_iff.mp ⟨co, hc⟩ with rfl | rfl | rfl
    · cases hc.symm.trans lineGraph_one
      rfl
    · cases hc.symm.trans lineGraph_two
      rfl
    · cases hc.symm.trans lineGraph_three
      rfl
  rw [htree, reach_other zero_notMem_line] at ho
  rw [ho, isCommit_iff]
  exact zero_notMem_line

/-- A repository that installs the packs of the three pushes. -/
noncomputable def taggedGit : Git (Set CommitHash) :=
  refGit lineGraph (packsOf lineGraph tagPublications)

theorem tag_delivered : Delivered lineGraph (packsOf lineGraph tagPublications) taggedGit id
    (netOf tagPublications) signerCrypto tagPublications := by
  refine delivered_netOf line_no_return (fun _ _ => line_parents) ?_ ?_ ?_
  all_goals
    intro p hp q hq h
    rcases mem_tagPublications.mp hp with rfl | rfl | rfl <;>
      rcases mem_tagPublications.mp hq with rfl | rfl | rfl <;>
      first | rfl | exact absurd h (by decide)

end Sample

/-- The branch was pushed at its first and third commit, and the second one tagged: the fetch of
the branch completes. -/
theorem fetch_along_line_tagged :
    FetchCompletes Sample.lineGraph Sample.taggedGit id (netOf Sample.tagPublications) Sample.taggedTwo
      ∅ (Sample.sha 3) Sample.main (collectBundleTipExtensions Sample.taggedTwo).toList := by
  obtain ⟨e, he, ht⟩ := Option.map_eq_some_iff.mp Sample.taggedTwo_main
  have hd : Delivered Sample.lineGraph (packsOf Sample.lineGraph Sample.tagPublications)
      Sample.taggedGit id (netOf Sample.tagPublications) Sample.signerCrypto
      (publications Sample.signerCrypto Sample.params Sample.signerKey Sample.tagTrace) := by
    rw [Sample.tag_publications]
    exact Sample.tag_delivered
  have hdone := fetch_along_line Sample.created_eq Sample.tag_run Sample.line_linear
    (fun _ _ hc _ => Sample.line_trees hc) Sample.tag_pushes hd he (show id ∅ = ∅ from rfl) (.refl _)
  rwa [ht] at hdone

end FreenetGit
