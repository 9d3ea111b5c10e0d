/-
# `FreenetGit.PushFetch` — a fetch after a run of pushes

A push leaves out of its pack what its `have` reaches; a fetch asks, round by round, for the
commits it finds just outside the packs it has (`asked`).  What a fetch asks for in the
rounds of the loop is exactly that (`FetchInv`), so after any run of pushes the fetch of a
ref ends normally and with the whole closure of the target if and only if the packs asked
for in all rounds hold everything the target reaches (`fetch_complete_iff`).

At the end of the file: a ref that was moved back to an ancestor.  Its pack is empty,
and the fetch never ends.
-/
import FreenetGit.Concurrent
import FreenetGit.PushRun
import FreenetGit.Rounds

namespace FreenetGit

open Lib

/-! ## What the packs hold -/

/-- The objects of the pack: those the tip reaches and the `have` does not. -/
def Publication.objects (g : ObjectGraph) (p : Publication) : Set CommitHash :=
  {o | Reach g p.tip o ∧ ∀ h ∈ p.have_, ¬ Reach g h o}

/-- The commit is the tip of a publication. -/
def Advertised (F : List Publication) (a : CommitHash) : Prop := ∃ p ∈ F, p.tip = a

/-- The pack that a fetch takes for `c`: of the bundles whose tip is `c`, the last one in the
order of their hash map. -/
def tipPack (g : ObjectGraph) (cr : Crypto) (F : List Publication)
    (bundleTips : List (ObjectBundleId × CommitHash)) (c : CommitHash) : Set CommitHash :=
  {o | ∃ p ∈ F, (bundleTips.filter (·.2 = c)).getLast?.map (·.1) = some (p.bundle.id cr) ∧
    o ∈ p.objects g}

/-- What is assumed of git, of the network and of the hash function. -/
structure Delivered {D : Type} (g : ObjectGraph) (packObjects : Bytes → Set CommitHash)
    (git : Git D) (local_ : D → Set CommitHash)
    (net : Nat → ObjectBundle → Except String Bytes) (cr : Crypto) (F : List Publication) :
    Prop where
  /-- Objects are named by their content, so none reaches itself. -/
  acyclic : ∀ a, ∀ b ∈ (g a).links, ¬ Reach g b a
  /-- The parents of a published commit are commits. -/
  parents : ∀ p ∈ F, ∀ c co, Reach g p.tip c → g c = .commit co →
    ∀ q ∈ co.parents, ∃ co', g q = .commit co'
  /-- `build_pack` packs what the want reaches and the have does not. -/
  packs : ∀ p ∈ F, packObjects p.pack = p.objects g
  /-- The receiving git answers as `GitSpec` says. -/
  spec : GitSpec git g local_
  /-- It installs the published packs. -/
  installs : ∀ p ∈ F, ∀ db, ∃ out db', git.indexPack db p.pack = (.ok out, db') ∧
    out.success = true ∧ local_ db' = local_ db ∪ packObjects p.pack
  /-- Every published bundle is returned intact. -/
  intact : ∀ p ∈ F, ∀ n, net n p.bundle = .ok p.pack
  /-- No two published bundles have one hash. -/
  ids : {bs | ∃ p ∈ F, bs = p.bundle.encoding}.InjOn cr.blake3

section

variable {g : ObjectGraph} {F : List Publication} {p q : Publication} {o : CommitHash}

/-- A pack that is not empty holds its tip. -/
theorem Publication.tip_mem (h : o ∈ p.objects g) : p.tip ∈ p.objects g :=
  ⟨.refl, fun b hb hr => h.2 b hb (hr.trans h.1)⟩

/-- Without an object that reaches itself, two that reach each other are one. -/
theorem eq_of_reach (hacyclic : ∀ a, ∀ b ∈ (g a).links, ¬ Reach g b a) {a b : CommitHash}
    (hab : Reach g a b) (hba : Reach g b a) : a = b := by
  rcases Relation.ReflTransGen.cases_head hab with heq | ⟨c, hc, hcb⟩
  · exact heq
  · exact absurd (hcb.trans hba) (hacyclic a c hc)

variable {D : Type} {packObjects : Bytes → Set CommitHash} {git : Git D}
  {local_ : D → Set CommitHash} {net : Nat → ObjectBundle → Except String Bytes} {cr : Crypto}

/-- One id is one pack. -/
theorem Delivered.pack_eq (hd : Delivered g packObjects git local_ net cr F) (hp : p ∈ F)
    (hq : q ∈ F) (h : p.bundle.id cr = q.bundle.id cr) : p.pack = q.pack := by
  have hb : p.bundle = q.bundle := ObjectBundle.id_inj hd.ids ⟨p, hp, rfl⟩ ⟨q, hq, rfl⟩ h
  have hn := hd.intact p hp 0
  rw [hb, hd.intact q hq 0] at hn
  exact (Except.ok.inj hn).symm

theorem Delivered.objects_eq (hd : Delivered g packObjects git local_ net cr F) (hp : p ∈ F)
    (hq : q ∈ F) (h : p.bundle.id cr = q.bundle.id cr) : p.objects g = q.objects g := by
  rw [← hd.packs p hp, ← hd.packs q hq, hd.pack_eq hp hq h]

/-- A pack that is not empty was published for one tip only. -/
theorem Delivered.tip_eq (hd : Delivered g packObjects git local_ net cr F) (hp : p ∈ F)
    (hq : q ∈ F) (h : p.bundle.id cr = q.bundle.id cr) (ho : o ∈ p.objects g) :
    p.tip = q.tip := by
  have heq := hd.objects_eq hp hq h
  have hpq : p.tip ∈ q.objects g := heq ▸ Publication.tip_mem ho
  have hqp : q.tip ∈ p.objects g := heq ▸ Publication.tip_mem (heq ▸ ho)
  exact eq_of_reach hd.acyclic hqp.1 hpq.1

end

/-! A repository and a network that answer so. -/

/-- The objects in a pack with these bytes. -/
def packsOf (g : ObjectGraph) (F : List Publication) (bs : Bytes) : Set CommitHash :=
  {o | ∃ p ∈ F, p.pack = bs ∧ o ∈ p.objects g}

/-- A network that has the published bundles. -/
def netOf (F : List Publication) (_ : Nat) (bundle : ObjectBundle) : Except String Bytes :=
  match F.find? (·.bundle = bundle) with
  | none => .error ""
  | some p => .ok p.pack

theorem delivered_netOf {g : ObjectGraph} {F : List Publication} {cr : Crypto}
    (hacyclic : ∀ a, ∀ b ∈ (g a).links, ¬ Reach g b a)
    (hparents : ∀ c co, g c = .commit co → ∀ q ∈ co.parents, ∃ co', g q = .commit co')
    (hpack : ∀ p ∈ F, ∀ q ∈ F, p.pack = q.pack → p = q)
    (hbundle : ∀ p ∈ F, ∀ q ∈ F, p.bundle = q.bundle → p = q)
    (hids : ∀ p ∈ F, ∀ q ∈ F, cr.blake3 p.bundle.encoding = cr.blake3 q.bundle.encoding → p = q) :
    Delivered g (packsOf g F) (refGit g (packsOf g F)) id (netOf F) cr F where
  acyclic := hacyclic
  parents _ _ c co _ hc := hparents c co hc
  packs p hp := by
    ext o
    constructor
    · rintro ⟨q, hq, heq, ho⟩
      exact hpack q hq p hp heq ▸ ho
    · exact fun ho => ⟨p, hp, rfl, ho⟩
  spec := refGit_spec
  installs _ _ _ := ⟨_, _, rfl, rfl, rfl⟩
  intact p hp n := by
    unfold netOf
    split
    · next hnone => exact absurd (decide_eq_true rfl) (List.find?_eq_none.mp hnone p hp)
    · next q hq =>
        have hbool := List.find?_some hq
        rw [hbundle q (List.mem_of_find?_eq_some hq) p hp (of_decide_eq_true hbool)]
  ids := by
    rintro _ ⟨p, hp, rfl⟩ _ ⟨q, hq, rfl⟩ h
    rw [hids p hp q hq h]

/-! ## The tips of a state -/

section

variable {g : ObjectGraph} {F : List Publication} {p : Publication} {D : Type}
  {packObjects : Bytes → Set CommitHash} {git : Git D} {local_ : D → Set CommitHash}
  {net : Nat → ObjectBundle → Except String Bytes} {cr : Crypto} {state : RepoState}
  {bundleTips : List (ObjectBundleId × CommitHash)} {id : ObjectBundleId} {c o : CommitHash}

/-- The mirror mode is no tip. -/
theorem parse_mirrorMode : parseBundleTipExtensionKey mirrorModeExtensionKey = none := by
  decide

theorem bundleTip_mirrorMode (e : ExtensionEntry) :
    bundleTip (mirrorModeExtensionKey, e) = none := by
  simp only [bundleTip, parse_mirrorMode]

theorem bundleTip_key {e : ExtensionEntry} (hv : e.value = c.toList) :
    bundleTip (bundleTipExtensionKey id, e) = some (id, c) := by
  simp only [bundleTip, parseBundleTipExtensionKey_key, hv, toArray?_toList, Option.map_some]

/-- An entry that gives a tip is that of a publication. -/
theorem Advertises.of_bundleTip {entry : String × ExtensionEntry} (h : Advertises cr F state)
    (hmem : entry ∈ state.extensions.toList) (htip : bundleTip entry = some (id, c)) :
    ∃ p ∈ F, p.bundle.id cr = id ∧ p.tip = c := by
  obtain ⟨k, e⟩ := entry
  have hk : state.extensions[k]? = some e :=
    Std.ExtTreeMap.mem_toList_iff_getElem?_eq_some.mp hmem
  rcases h.extensions k e hk with rfl | ⟨p, hp, rfl, hv⟩
  · rw [bundleTip_mirrorMode] at htip
    cases htip
  · rw [bundleTip_key hv, Option.some.injEq, Prod.mk.injEq] at htip
    exact ⟨p, hp, htip⟩

/-- Every published bundle has an entry, which gives the tip of a publication of it. -/
theorem Advertises.exists_bundleTip (h : Advertises cr F state) (hp : p ∈ F) :
    ∃ q ∈ F, q.bundle.id cr = p.bundle.id cr ∧
      ∃ entry ∈ state.extensions.toList, bundleTip entry = some (p.bundle.id cr, q.tip) := by
  obtain ⟨e, he⟩ := h.tipped p hp
  have hmem := Std.ExtTreeMap.mem_toList_iff_getElem?_eq_some.mpr he
  rcases h.extensions _ e he with hk | ⟨q, hq, hk, hv⟩
  · have hparse := parseBundleTipExtensionKey_key (p.bundle.id cr)
    rw [hk, parse_mirrorMode] at hparse
    cases hparse
  · exact ⟨q, hq, (bundleTipExtensionKey_inj hk).symm, _, hmem, bundleTip_key hv⟩

/-- A tip in the state is that of a publication. -/
theorem Advertises.tip (h : Advertises cr F state)
    (hid : (collectBundleTipExtensions state)[id]? = some c) :
    ∃ p ∈ F, p.bundle.id cr = id ∧ p.tip = c := by
  obtain ⟨entry, hmem, htip⟩ := of_collect hid
  exact h.of_bundleTip hmem htip

/-- Every published bundle has a tip in the state. -/
theorem Advertises.exists_tip (h : Advertises cr F state) (hp : p ∈ F) :
    ∃ c, (collectBundleTipExtensions state)[p.bundle.id cr]? = some c := by
  obtain ⟨q, -, -, entry, hmem, htip⟩ := h.exists_bundleTip hp
  exact exists_collect hmem htip

/-- After a run of pushes no bundle is without a tip. -/
theorem Advertises.legacyIds (h : Advertises cr F state) : legacyIds state = [] := by
  rw [FreenetGit.legacyIds, List.filter_eq_nil_iff]
  intro id hid
  obtain ⟨r, hr⟩ := mem_iff_getElem?.mp (Std.ExtTreeMap.mem_keys.mp hid)
  obtain ⟨p, hp, -, rfl⟩ := h.records id r hr
  obtain ⟨c, hc⟩ := h.exists_tip hp
  have hcontains : (collectBundleTipExtensions state).contains (p.bundle.id cr) = true :=
    Std.ExtTreeMap.contains_iff_mem.mpr (mem_iff_getElem?.mpr ⟨c, hc⟩)
  rw [hcontains]
  nofun

theorem mem_tipPack : o ∈ tipPack g cr F bundleTips c ↔
    ∃ p ∈ F, (tipToBundle bundleTips)[c]? = some (p.bundle.id cr) ∧ o ∈ p.objects g := by
  rw [tipToBundle_getElem?]
  rfl

/-- The pack for a commit with a bundle is that of a publication of the commit. -/
theorem Advertises.tipPack_of_lookup (h : Advertises cr F state)
    (hd : Delivered g packObjects git local_ net cr F)
    (hperm : bundleTips.Perm (collectBundleTipExtensions state).toList)
    (hid : (tipToBundle bundleTips)[c]? = some id) :
    ∃ p ∈ F, p.tip = c ∧ tipPack g cr F bundleTips c = p.objects g := by
  obtain ⟨p, hp, rfl, rfl⟩ := h.tip (of_tipToBundle hperm hid)
  refine ⟨p, hp, rfl, Set.ext fun x => ?_⟩
  rw [mem_tipPack]
  constructor
  · rintro ⟨q, hq, hqid, hx⟩
    exact hd.objects_eq hq hp (Option.some.inj (hid.symm.trans hqid)).symm ▸ hx
  · exact fun hx => ⟨p, hp, hid, hx⟩

/-- The tip of a pack that is not empty has a bundle. -/
theorem Advertises.exists_tipPack (h : Advertises cr F state)
    (hd : Delivered g packObjects git local_ net cr F)
    (hperm : bundleTips.Perm (collectBundleTipExtensions state).toList) (hp : p ∈ F)
    (ho : o ∈ p.objects g) :
    ∃ q ∈ F, q.tip = p.tip ∧ tipPack g cr F bundleTips p.tip = q.objects g := by
  obtain ⟨c, hc⟩ := h.exists_tip hp
  obtain ⟨q, hq, hid, rfl⟩ := h.tip hc
  obtain ⟨id, hlook⟩ := exists_collect (f := fun e => some (e.2, e.1))
    ((mem_bundleTips hperm).mpr hc) rfl
  rw [hd.tip_eq hp hq hid.symm ho]
  exact h.tipPack_of_lookup hd hperm hlook

end

/-! ## The invariant of the loop -/

/-- The local objects are those of the downloaded packs. -/
def HoldsPacks {D : Type} (g : ObjectGraph) (local_ : D → Set CommitHash) (cr : Crypto)
    (F : List Publication) (s : FetchState D) : Prop :=
  ∀ o, o ∈ local_ s.db ↔ ∃ p ∈ F, p.bundle.id cr ∈ s.downloaded ∧ o ∈ p.objects g

/-- What the loop keeps: the wanted commits are those asked for after some rounds, what is local
are the packs that were downloaded, and these were wanted.  A walked commit peels locally, and
its parents are walked or wanted; the target is the first to be walked. -/
structure FetchInv {D : Type} (g : ObjectGraph) (local_ : D → Set CommitHash) (cr : Crypto)
    (F : List Publication) (bundleTips : List (ObjectBundleId × CommitHash)) (t : CommitHash)
    (s : FetchState D) : Prop where
  rounds : ∃ k, (s.wanted : Set CommitHash) = asked g (tipPack g cr F bundleTips) t k
  holds : HoldsPacks g local_ cr F s
  downloaded : ∀ id ∈ s.downloaded, ∃ c ∈ s.wanted, (tipToBundle bundleTips)[c]? = some id
  walked : ∀ c ∈ s.walked, ∃ co, PeelsIn g (local_ s.db) c co ∧
    ∀ p ∈ co.parents, p ∈ s.walked ∨ p ∈ s.wanted
  root : t ∈ s.walked ∨ (s.walked = ∅ ∧ s.wanted = {t})

section

variable {g : ObjectGraph} {F : List Publication} {D : Type} {packObjects : Bytes → Set CommitHash}
  {git : Git D} {local_ : D → Set CommitHash} {net : Nat → ObjectBundle → Except String Bytes}
  {cr : Crypto} {state : RepoState} {bundleTips : List (ObjectBundleId × CommitHash)}
  {t c o : CommitHash} {s s' : FetchState D}

theorem FetchInv.init {db : D} (hempty : local_ db = ∅) :
    FetchInv g local_ cr F bundleTips t ⟨db, {t}, ∅, ∅, 1⟩ where
  rounds := ⟨0, Finset.coe_singleton t⟩
  holds o := by
    rw [hempty]
    constructor
    · exact fun h => absurd h (Set.notMem_empty o)
    · rintro ⟨p, -, hid, -⟩
      exact absurd hid (Finset.notMem_empty _)
  downloaded id hid := absurd hid (Finset.notMem_empty id)
  walked c hc := absurd hc (Finset.notMem_empty c)
  root := .inr ⟨rfl, rfl⟩

/-! ### Downloads -/

/-- **A download succeeds** and adds the objects of its pack. -/
theorem downloadBundle_published (ha : Advertises cr F state)
    (hd : Delivered g packObjects git local_ net cr F) {p : Publication} (hp : p ∈ F)
    (h : HoldsPacks g local_ cr F s) :
    ∃ s', downloadBundle git net state s (p.bundle.id cr) = .ok s' ∧
      HoldsPacks g local_ cr F s' := by
  obtain ⟨r, hr⟩ := ha.indexed p hp
  obtain ⟨q, hq, hqb, hqid⟩ := ha.records _ r hr
  obtain ⟨out, db', hindex, hok, hlocal⟩ := hd.installs q hq s.db
  have hinstall : installPack git s.db q.pack = .ok db' := by
    rw [installPack, hindex]
    exact if_pos hok
  refine ⟨⟨db', s.wanted, s.walked, insert (p.bundle.id cr) s.downloaded, s.step + 1⟩, ?_, ?_⟩
  · rw [downloadBundle, hr]
    dsimp only
    rw [← hqb, hd.intact q hq]
    dsimp only
    rw [hinstall]
    rfl
  · intro o
    rw [hlocal, hd.packs q hq, Set.mem_union, h o]
    constructor
    · rintro (⟨p', hp', hid, ho⟩ | ho)
      · exact ⟨p', hp', Finset.mem_insert_of_mem hid, ho⟩
      · exact ⟨q, hq, hqid ▸ Finset.mem_insert_self _ _, ho⟩
    · rintro ⟨p', hp', hid, ho⟩
      rcases Finset.mem_insert.mp hid with heq | hid
      · exact .inr (hd.objects_eq hp' hq (heq.trans hqid.symm) ▸ ho)
      · exact .inl ⟨p', hp', hid, ho⟩

/-- Downloads of published bundles succeed, one after another. -/
theorem downloadBundles_published (ha : Advertises cr F state)
    (hd : Delivered g packObjects git local_ net cr F) :
    ∀ {ids : List ObjectBundleId} {s : FetchState D},
      (∀ id ∈ ids, ∃ p ∈ F, p.bundle.id cr = id) → HoldsPacks g local_ cr F s →
      ∃ s', downloadBundles git net state ids s = .ok s' ∧ HoldsPacks g local_ cr F s'
  | [], s, _, h => ⟨s, rfl, h⟩
  | id :: ids, s, hids, h => by
      obtain ⟨p, hp, rfl⟩ := hids id List.mem_cons_self
      obtain ⟨s₁, h₁, hs₁⟩ := downloadBundle_published ha hd hp h
      obtain ⟨s', h', hs'⟩ := downloadBundles_published ha hd
        (fun i hi => hids i (List.mem_cons_of_mem _ hi)) hs₁
      refine ⟨s', ?_, hs'⟩
      rw [downloadBundles, List.foldlM_cons, h₁]
      exact h'

/-- **The downloads of a pass** succeed and keep the invariant. -/
theorem FetchInv.download (hinv : FetchInv g local_ cr F bundleTips t s) (ha : Advertises cr F state)
    (hd : Delivered g packObjects git local_ net cr F)
    (hperm : bundleTips.Perm (collectBundleTipExtensions state).toList)
    (order : HashOrder CommitHash) :
    ∃ s', downloadBundles git net state (toDownload (tipToBundle bundleTips) order s) s = .ok s' ∧
      FetchInv g local_ cr F bundleTips t s' := by
  have hids : ∀ id ∈ toDownload (tipToBundle bundleTips) order s, ∃ p ∈ F, p.bundle.id cr = id := by
    intro id hid
    obtain ⟨⟨c, -, hc⟩, -⟩ := mem_toDownload.mp hid
    obtain ⟨p, hp, hpid, -⟩ := ha.tip (of_tipToBundle hperm hc)
    exact ⟨p, hp, hpid⟩
  obtain ⟨s', hs', hholds⟩ := downloadBundles_published ha hd hids hinv.holds
  obtain ⟨hwanted, hwalked, hdown, -⟩ := downloadBundles_eq_ok hs'
  refine ⟨s', hs', ?_, hholds, ?_, ?_, ?_⟩
  · exact hwanted ▸ hinv.rounds
  · rw [hwanted, hdown]
    intro id hid
    rcases Finset.mem_union.mp hid with hid | hid
    · exact hinv.downloaded id hid
    · exact (mem_toDownload.mp (List.mem_toFinset.mp hid)).1
  · rw [hwalked, hwanted]
    intro c hc
    obtain ⟨co, hco, hpar⟩ := hinv.walked c hc
    exact ⟨co, hco.mono (downloadBundles_local hd.spec hs'), hpar⟩
  · rw [hwalked, hwanted]
    exact hinv.root

/-- **When nothing is left to download**, the local objects are those of the packs of the
wanted commits. -/
theorem FetchInv.local_eq (hinv : FetchInv g local_ cr F bundleTips t s)
    (hdrained : Drained (tipToBundle bundleTips) s) :
    local_ s.db = Held (tipPack g cr F bundleTips) s.wanted := by
  ext o
  rw [hinv.holds o]
  constructor
  · rintro ⟨p, hp, hid, ho⟩
    obtain ⟨c, hc, hct⟩ := hinv.downloaded _ hid
    exact ⟨c, hc, mem_tipPack.mpr ⟨p, hp, hct, ho⟩⟩
  · rintro ⟨c, hc, ho⟩
    obtain ⟨p, hp, hct, ho⟩ := mem_tipPack.mp ho
    exact ⟨p, hp, hdrained c hc _ hct, ho⟩

/-! ### The walk -/

section

variable {order : HashOrder CommitHash} {newWants walked : Finset CommitHash}

theorem GitSpec.newWants_missing (hg : GitSpec git g local_)
    (hw : walkUnresolvedParents git s.db order s.wanted s.walked = .ok (newWants, walked)) :
    ∀ c ∈ newWants, c ∉ local_ s.db :=
  fun c hc => hg.lookUp_none_iff.mp (((walk_eq_ok hw).1 c).mp hc).2

/-- What a walk comes to is walked or missing. -/
theorem FetchInv.covers (hinv : FetchInv g local_ cr F bundleTips t s) (hg : GitSpec git g local_)
    (hw : walkUnresolvedParents git s.db order s.wanted s.walked = .ok (newWants, walked))
    (h : Met g (local_ s.db) s.wanted c) : c ∈ walked ∨ c ∈ newWants := by
  obtain ⟨hwanted, hclosed⟩ := walk_covers hw
  induction h with
  | want h => exact hwanted _ h
  | @parent b p co _ hb hp ih =>
      have hbw : b ∈ walked :=
        ih.resolve_right fun hn => hg.newWants_missing hw b hn hb.mem
      by_cases hold : b ∈ s.walked
      · obtain ⟨co', hco', hpar⟩ := hinv.walked b hold
        rw [hb.unique hco'] at hp
        rcases hpar p hp with h | h
        · exact .inl (((walk_eq_ok hw).2 p).mpr (.inl h))
        · exact hwanted p h
      · exact hclosed b hbw hold _ (hg.lookUp_commit hb) p hp

/-- **A walk finds what the packs lack.** -/
theorem FetchInv.newWants_eq (hinv : FetchInv g local_ cr F bundleTips t s)
    (hg : GitSpec git g local_) (hdrained : Drained (tipToBundle bundleTips) s)
    (hw : walkUnresolvedParents git s.db order s.wanted s.walked = .ok (newWants, walked)) :
    (newWants : Set CommitHash) = Lacking g (tipPack g cr F bundleTips) s.wanted := by
  have hlocal := hinv.local_eq hdrained
  have hwalked : ∀ c ∈ walked, c ∈ local_ s.db := by
    intro c hc
    rcases ((walk_eq_ok hw).2 c).mp hc with hc | ⟨-, next, hl⟩
    · obtain ⟨co, hco, -⟩ := hinv.walked c hc
      exact hco.mem
    · exact hg.local_of_lookUp hl
  ext c
  rw [Lacking, Set.mem_ofPred_eq, ← hlocal]
  constructor
  · intro hc
    exact ⟨hg.visited_met (((walk_eq_ok hw).1 c).mp hc).1, hg.newWants_missing hw c hc⟩
  · rintro ⟨hmet, hc⟩
    exact (hinv.covers hg hw hmet).resolve_left fun h => hc (hwalked c h)

/-- A walk that goes on found the target, if it is local, to be a commit or a tag of one. -/
theorem FetchInv.target_peels (hinv : FetchInv g local_ cr F bundleTips t s)
    (hg : GitSpec git g local_)
    (hw : walkUnresolvedParents git s.db order s.wanted s.walked = .ok (newWants, walked))
    (hne : newWants ≠ ∅) (ht : t ∈ local_ s.db) : ∃ co, PeelsIn g (local_ s.db) t co := by
  rcases hinv.root with hroot | ⟨-, hwanted⟩
  · obtain ⟨co, hco, -⟩ := hinv.walked t hroot
    exact ⟨co, hco⟩
  · by_contra hn
    obtain ⟨c, hc⟩ := Finset.nonempty_iff_ne_empty.mpr hne
    have hmet := hg.visited_met (((walk_eq_ok hw).1 c).mp hc).1
    rw [hwanted, Finset.coe_singleton] at hmet
    cases hmet.eq_of_not_peels (not_exists.mp hn)
    exact hg.newWants_missing hw t hc ht

/-- What a walk that goes on visits and finds local is the target or a commit, so it peels. -/
theorem FetchInv.visited_peels (hinv : FetchInv g local_ cr F bundleTips t s)
    (hd : Delivered g packObjects git local_ net cr F) (ht : Advertised F t)
    (hw : walkUnresolvedParents git s.db order s.wanted s.walked = .ok (newWants, walked))
    (hne : newWants ≠ ∅) (hv : Visited git s.db s.wanted s.walked c) (hc : c ∈ local_ s.db) :
    ∃ co, PeelsIn g (local_ s.db) c co := by
  obtain ⟨p, hp, rfl⟩ := ht
  obtain ⟨k, hk⟩ := hinv.rounds
  have hmet := hd.spec.visited_met hv
  rw [hk] at hmet
  rcases hmet.isCommit (hd.parents p hp)
      fun w hw => ⟨asked_history hw, asked_isCommit (hd.parents p hp) hw⟩ with rfl | ⟨co, hco⟩
  · exact hinv.target_peels hd.spec hw hne hc
  · exact ⟨co, .commit hc hco⟩

/-- The target is walked, or it is missing and nothing else was met. -/
theorem FetchInv.walk_root (hinv : FetchInv g local_ cr F bundleTips t s)
    (hg : GitSpec git g local_)
    (hw : walkUnresolvedParents git s.db order s.wanted s.walked = .ok (newWants, walked)) :
    t ∈ walked ∨ walked = ∅ ∧ s.wanted ∪ newWants = {t} := by
  obtain ⟨hnew, hwalked⟩ := walk_eq_ok hw
  rcases hinv.root with hroot | ⟨hnone, hwanted⟩
  · exact .inl ((hwalked t).mpr (.inl hroot))
  · rcases (walk_covers hw).1 t (hwanted ▸ Finset.mem_singleton_self _) with h | h
    · exact .inl h
    · have hmissing := hg.newWants_missing hw t h
      have honly : ∀ {c}, Visited git s.db s.wanted s.walked c → c = t := by
        intro c hv
        have hmet := hg.visited_met hv
        rw [hwanted, Finset.coe_singleton] at hmet
        exact hmet.eq_of_not_peels fun co hco => hmissing hco.mem
      refine .inr ⟨Finset.eq_empty_of_forall_notMem fun c hc => ?_, ?_⟩
      · rcases (hwalked c).mp hc with hc | ⟨hv, next, hl⟩
        · exact absurd (hnone ▸ hc) (Finset.notMem_empty c)
        · exact hmissing (honly hv ▸ hg.local_of_lookUp hl)
      · rw [hwanted, Finset.union_eq_left]
        exact fun c hc => Finset.mem_singleton.mpr (honly ((hnew c).mp hc).1)

/-- **A walk that goes on keeps the invariant**, with the missing commits wanted as well. -/
theorem FetchInv.walk (hinv : FetchInv g local_ cr F bundleTips t s)
    (hd : Delivered g packObjects git local_ net cr F) (ht : Advertised F t)
    (hdrained : Drained (tipToBundle bundleTips) s)
    (hw : walkUnresolvedParents git s.db order s.wanted s.walked = .ok (newWants, walked))
    (hne : newWants ≠ ∅) :
    FetchInv g local_ cr F bundleTips t
      { s with walked := walked, wanted := s.wanted ∪ newWants } := by
  obtain ⟨k, hk⟩ := hinv.rounds
  have hrounds : ((s.wanted ∪ newWants : Finset CommitHash) : Set CommitHash) =
      asked g (tipPack g cr F bundleTips) t (k + 1) := by
    rw [Finset.coe_union, hinv.newWants_eq hd.spec hdrained hw, hk]
    rfl
  refine ⟨⟨k + 1, hrounds⟩, hinv.holds, ?_, ?_, hinv.walk_root hd.spec hw⟩
  · intro id hid
    obtain ⟨c, hc, hct⟩ := hinv.downloaded id hid
    exact ⟨c, Finset.mem_union_left _ hc, hct⟩
  · intro c hc
    by_cases hold : c ∈ s.walked
    · obtain ⟨co, hco, hpar⟩ := hinv.walked c hold
      refine ⟨co, hco, fun q hq => ?_⟩
      rcases hpar q hq with h | h
      · exact .inl (((walk_eq_ok hw).2 q).mpr (.inl h))
      · exact .inr (Finset.mem_union_left _ h)
    · obtain ⟨hv, next, hl⟩ := (((walk_eq_ok hw).2 c).mp hc).resolve_left hold
      obtain ⟨co, hco⟩ := hinv.visited_peels hd ht hw hne hv (hd.spec.local_of_lookUp hl)
      refine ⟨co, hco, fun q hq => ?_⟩
      rcases (walk_covers hw).2 c hc hold _ (hd.spec.lookUp_commit hco) q hq with h | h
      · exact .inl h
      · exact .inr (Finset.mem_union_right _ h)

/-- **When no object is to come**, the packs suffice if and only if all that the target reaches
is local. -/
theorem FetchInv.suffice_iff (hinv : FetchInv g local_ cr F bundleTips t s)
    (hg : GitSpec git g local_) (hdrained : Drained (tipToBundle bundleTips) s)
    (hw : walkUnresolvedParents git s.db order s.wanted s.walked = .ok (newWants, walked))
    (hnone : ∀ c ∈ newWants, ∀ id, (tipToBundle bundleTips)[c]? = some id → id ∈ s.downloaded) :
    PacksSuffice g (tipPack g cr F bundleTips) t ↔ ∀ o, Reach g t o → o ∈ local_ s.db := by
  obtain ⟨k, hk⟩ := hinv.rounds
  have hnew := hinv.newWants_eq hg hdrained hw
  have hlocal := hinv.local_eq hdrained
  rw [hk] at hnew hlocal
  rw [hlocal]
  refine packsSuffice_iff_of_settled ?_
  have hsub : Held (tipPack g cr F bundleTips) newWants ⊆ local_ s.db := by
    rintro o ⟨c, hc, ho⟩
    obtain ⟨p, hp, hct, ho⟩ := mem_tipPack.mp ho
    exact (hinv.holds o).mpr ⟨p, hp, hnone c hc _ hct, ho⟩
  rw [asked, ← hnew, held_union, ← hlocal, Set.union_eq_left.mpr hsub]

end

/-! ### The passes -/

/-- **A pass keeps the invariant.** -/
theorem FetchInv.step (hinv : FetchInv g local_ cr F bundleTips t s) (ha : Advertises cr F state)
    (hd : Delivered g packObjects git local_ net cr F)
    (hperm : bundleTips.Perm (collectBundleTipExtensions state).toList) (ht : Advertised F t)
    (h : Loop.Step (FetchPass git net state (tipToBundle bundleTips)) s s') :
    FetchInv g local_ cr F bundleTips t s' := by
  rcases fetchPass_next h with
    ⟨-, order, hdl⟩ | ⟨hdrained, order, newWants, walked, hw, ⟨c, hc, -⟩, rfl⟩
  · obtain ⟨s₁, hs₁, hinv₁⟩ := hinv.download ha hd hperm order
    rw [hdl] at hs₁
    cases hs₁
    exact hinv₁
  · exact hinv.walk hd ht hdrained hw (Finset.ne_empty_of_mem hc)

theorem FetchInv.reaches (hinv : FetchInv g local_ cr F bundleTips t s) (ha : Advertises cr F state)
    (hd : Delivered g packObjects git local_ net cr F)
    (hperm : bundleTips.Perm (collectBundleTipExtensions state).toList) (ht : Advertised F t)
    (h : Loop.Reaches (FetchPass git net state (tipToBundle bundleTips)) s s') :
    FetchInv g local_ cr F bundleTips t s' :=
  Loop.invariant _ (fun _ _ hinv hs => hinv.step ha hd hperm ht hs) h hinv

theorem GitSpec.exists_walk (hg : GitSpec git g local_) (order : HashOrder CommitHash)
    (s : FetchState D) :
    ∃ r, walkUnresolvedParents git s.db order s.wanted s.walked = .ok r := by
  refine traverse_total fun c _ => ?_
  rcases hg.lookUp_cases s.db c with ⟨-, h⟩ | ⟨co, -, h⟩ | ⟨-, -, h⟩
  all_goals exact ⟨_, h⟩

/-- Where the packs suffice, a walk that finds commits missing finds one whose bundle is still
to be downloaded. -/
theorem FetchInv.progress (hinv : FetchInv g local_ cr F bundleTips t s) (hg : GitSpec git g local_)
    (hsuffice : PacksSuffice g (tipPack g cr F bundleTips) t)
    (hdrained : Drained (tipToBundle bundleTips) s) {order : HashOrder CommitHash}
    {newWants walked : Finset CommitHash}
    (hw : walkUnresolvedParents git s.db order s.wanted s.walked = .ok (newWants, walked))
    (hne : newWants ≠ ∅) :
    ∃ c ∈ newWants, ∃ id, (tipToBundle bundleTips)[c]? = some id ∧ id ∉ s.downloaded := by
  by_contra hnone
  have hwhole := (hinv.suffice_iff hg hdrained hw fun c hc id hid => by
    by_contra hn
    exact hnone ⟨c, hc, id, hid, hn⟩).mp hsuffice
  obtain ⟨c, hc⟩ := Finset.nonempty_iff_ne_empty.mpr hne
  obtain ⟨k, hk⟩ := hinv.rounds
  have hmet := hg.visited_met (((walk_eq_ok hw).1 c).mp hc).1
  rw [hk] at hmet
  obtain ⟨w, hwk, hwc⟩ := hmet.history
  exact hg.newWants_missing hw c hc (hwhole c (History.reach ((asked_history hwk).trans hwc)))

theorem FetchInv.not_stuck (hinv : FetchInv g local_ cr F bundleTips t s)
    (hg : GitSpec git g local_) (hsuffice : PacksSuffice g (tipPack g cr F bundleTips) t) :
    ¬ Stuck git (tipToBundle bundleTips) s := by
  intro hstuck
  obtain ⟨order⟩ := exists_hashOrder
  obtain ⟨⟨newWants, walked⟩, hw⟩ := hg.exists_walk order s
  have hnew : ∀ c, c ∈ newWants ↔ MissingAt git s c := (walk_eq_ok hw).1
  obtain ⟨c, hc, -⟩ := hstuck.advertised
  have hne : newWants ≠ ∅ := Finset.ne_empty_of_mem ((hnew c).mpr hc)
  obtain ⟨c', hc', id, hid, hn⟩ := hinv.progress hg hsuffice hstuck.drained hw hne
  exact hn (hstuck.downloaded c' ((hnew c').mp hc') id hid)

/-- Where the packs suffice, no pass fails. -/
theorem FetchInv.no_error (hinv : FetchInv g local_ cr F bundleTips t s) (ha : Advertises cr F state)
    (hd : Delivered g packObjects git local_ net cr F)
    (hperm : bundleTips.Perm (collectBundleTipExtensions state).toList)
    (hsuffice : PacksSuffice g (tipPack g cr F bundleTips) t) {e : Fault String} :
    ¬ FetchPass git net state (tipToBundle bundleTips) s (.error e) := by
  intro h
  rcases fetchPass_error h with ⟨-, order, hdl⟩ | ⟨hdrained, order, hw⟩
  · obtain ⟨s₁, hs₁, -⟩ := hinv.download ha hd hperm order
    rw [hdl] at hs₁
    cases hs₁
  · rcases hw with hw | ⟨newWants, walked, hw, hne, hnone, -⟩
    · obtain ⟨r, hr⟩ := hd.spec.exists_walk order s
      rw [hw] at hr
      cases hr
    · obtain ⟨c, hc, id, hid, -⟩ := hinv.progress hd.spec hsuffice hdrained hw hne
      exact hnone c hc (mem_iff_getElem?.mpr ⟨id, hid⟩)

/-- **The loop after a break**: the packs suffice if and only if everything is there. -/
theorem FetchInv.done_iff (hinv : FetchInv g local_ cr F bundleTips t s) (hg : GitSpec git g local_)
    (h : FetchPass git net state (tipToBundle bundleTips) s (.ok (.done s'))) :
    PacksSuffice g (tipPack g cr F bundleTips) t ↔ ∀ o, Reach g t o → o ∈ local_ s'.db := by
  obtain ⟨hdrained, order, walked, hw, rfl⟩ := fetchPass_done h
  exact hinv.suffice_iff hg hdrained hw fun c hc => absurd hc (Finset.notMem_empty c)

end

/-! ## A fetch after a run of pushes -/

section

variable {D : Type} {g : ObjectGraph} {packObjects : Bytes → Set CommitHash}
  {git : Git D} {local_ : D → Set CommitHash} {net : Nat → ObjectBundle → Except String Bytes}
  {cr : Crypto} {state : RepoState} {F : List Publication} {t : CommitHash} {n : String} {db : D}
  {bundleTips : List (ObjectBundleId × CommitHash)}

/-- The fetch of `t` starts, its loop terminates, and it can only end normally, with everything
that `t` reaches. -/
def FetchCompletes (g : ObjectGraph) (git : Git D) (local_ : D → Set CommitHash)
    (net : Nat → ObjectBundle → Except String Bytes) (state : RepoState) (db : D) (t : CommitHash)
    (n : String) (bundleTips : List (ObjectBundleId × CommitHash)) : Prop :=
  ∃ s, fetchStart git net state db [(hexEncodeCommit t, n)] = .ok s ∧
    Loop.Terminates (FetchPass git net state (tipToBundle bundleTips)) s ∧
    ∀ out, Loop.Exits (FetchPass git net state (tipToBundle bundleTips)) s out →
      ∃ s', out = .ok s' ∧ ∀ o, Reach g t o → o ∈ local_ s'.db

theorem Advertises.fetchStart (ha : Advertises cr F state) :
    FreenetGit.fetchStart git net state db [(hexEncodeCommit t, n)] = .ok ⟨db, {t}, ∅, ∅, 1⟩ := by
  rw [FreenetGit.fetchStart, ha.legacyIds, wantedCommits_one]
  rfl

/-- Where the packs suffice, the fetch of a published commit completes. -/
theorem fetchCompletes_of_suffice (ha : Advertises cr F state)
    (hd : Delivered g packObjects git local_ net cr F) (ht : Advertised F t) (hempty : local_ db = ∅)
    (hperm : bundleTips.Perm (collectBundleTipExtensions state).toList)
    (hsuffice : PacksSuffice g (tipPack g cr F bundleTips) t) :
    FetchCompletes g git local_ net state db t n bundleTips := by
  have hinit : FetchInv g local_ cr F bundleTips t ⟨db, {t}, ∅, ∅, 1⟩ := .init hempty
  refine ⟨_, ha.fetchStart, ?_, fun out hexit => ?_⟩
  · exact Loop.terminates_of_variant (FetchInv g local_ cr F bundleTips t)
      (fun _ _ hinv hs => hinv.step ha hd hperm ht hs) (fetchMeasure _)
      (fun _ _ hinv hs => fetchMeasure_lt (hinv.not_stuck hd.spec hsuffice) hs) hinit
  · rcases hexit with ⟨hr, hb⟩ | ⟨hr, hb⟩
    · exact ⟨_, rfl, ((hinit.reaches ha hd hperm ht hr).done_iff hd.spec hb).mp hsuffice⟩
    · exact absurd hb ((hinit.reaches ha hd hperm ht hr).no_error ha hd hperm hsuffice)

/-- Where the fetch of a published commit completes, the packs suffice. -/
theorem suffice_of_fetchCompletes (ha : Advertises cr F state)
    (hd : Delivered g packObjects git local_ net cr F) (ht : Advertised F t) (hempty : local_ db = ∅)
    (hperm : bundleTips.Perm (collectBundleTipExtensions state).toList)
    (h : FetchCompletes g git local_ net state db t n bundleTips) :
    PacksSuffice g (tipPack g cr F bundleTips) t := by
  have hinit : FetchInv g local_ cr F bundleTips t ⟨db, {t}, ∅, ∅, 1⟩ := .init hempty
  obtain ⟨s, hs, hterm, hexits⟩ := h
  cases ha.fetchStart.symm.trans hs
  obtain ⟨order⟩ := exists_hashOrder
  obtain ⟨out, hexit⟩ := hterm.exists_exit fun s => ⟨_, order, rfl⟩
  obtain ⟨s', rfl, hwhole⟩ := hexits out hexit
  cases hexit with
  | done hr hb => exact ((hinit.reaches ha hd hperm ht hr).done_iff hd.spec hb).mpr hwhole

/-- **A fetch is complete exactly where the packs suffice**: after any run of pushes and for any
ref, whatever the order of the hash maps. -/
theorem fetch_complete_iff {params : RepoParams} {key : SigningKey}
    {name description defaultBranch : String} {s₀ : RepoState}
    {tr : List (Transition RepoState PushCall)} {n : RefName} {e : RefEntry}
    (h₀ : initialRepoState cr params key name description defaultBranch = some s₀)
    (hrun : Run (OwnerPush cr params key) s₀ tr state)
    (hd : Delivered g packObjects git local_ net cr (publications cr params key tr))
    (href : state.refs[n]? = some e) (hempty : local_ db = ∅)
    (hperm : bundleTips.Perm (collectBundleTipExtensions state).toList) :
    FetchCompletes g git local_ net state db e.target n bundleTips ↔
      PacksSuffice g (tipPack g cr (publications cr params key tr) bundleTips) e.target := by
  have ha := run_advertises h₀ hrun
  have ht : Advertised (publications cr params key tr) e.target := ha.refs n e href
  exact ⟨fun h => suffice_of_fetchCompletes ha hd ht hempty hperm h,
    fun h => fetchCompletes_of_suffice ha hd ht hempty hperm h⟩

end

/-! The owner pushes a commit and then one that has it as its parent; or pushes both, and moves
the ref back to the parent: the second pack is empty, and its bundle is the only one
advertised for the parent. -/

section

variable {g : ObjectGraph} (rank : CommitHash → ℕ) (h : ∀ a, ∀ b ∈ (g a).links, rank b < rank a)

include h

theorem rank_lt_of_reach {a b : CommitHash} (hr : Reach g a b) : a = b ∨ rank b < rank a := by
  induction hr with
  | refl => exact .inl rfl
  | @tail b c _ hl ih =>
      have hlt := h b c hl
      rcases ih with rfl | ih
      · exact .inr hlt
      · exact .inr (hlt.trans ih)

/-- In a graph whose links go down a rank nothing reaches itself. -/
theorem acyclic_of_rank : ∀ a, ∀ b ∈ (g a).links, ¬ Reach g b a := by
  intro a b hb hr
  have hlt := h a b hb
  rcases rank_lt_of_reach rank h hr with rfl | hlt'
  · exact lt_irrefl _ hlt
  · exact absurd (hlt.trans hlt') (lt_irrefl _)

end

namespace Sample

/-- The commit 2 has the parent 1. -/
def pairGraph : ObjectGraph := fun c =>
  if c = sha 2 then .commit ⟨sha 3, [sha 1], [], []⟩
  else if c = sha 1 then .commit ⟨sha 3, [], [], []⟩
  else .tree []

/-- The first push: the commit 2, with its closure. -/
def pushPair : PushCall := onePush "refs/heads/main:refs/heads/main" 2 2

/-- The second push: the ref is moved back to the commit 1. -/
def pushBack : PushCall := onePush "+refs/heads/main:refs/heads/main" 1 1

/-- The first state. -/
def created : RepoState :=
  { RepoState.default with
    owner := owner
    name := signStringField signerCrypto params signerKey "name" "" 1
    description := signStringField signerCrypto params signerKey "description" "" 1
    defaultBranch := signStringField signerCrypto params signerKey "default_branch" main 1
    forcePushAllowed := signRefListField signerCrypto params signerKey "force_push_allowed" [] 1
    acl := signAclField signerCrypto params signerKey "acl" ⟨0, ∅⟩ 1
    upgrade := signOptionalRepoKeyField signerCrypto params signerKey "upgrade" none 1 }

def paired : RepoState := mergeState created (pushDelta main 2 2 (seenSeq created main + 1))

def movedBack : RepoState := mergeState paired (pushDelta main 1 1 (seenSeq paired main + 1))

def pairPublication : Publication := ⟨sha 2, none, packOf 2, bundleOf 2⟩

def backPublication : Publication := ⟨sha 1, some (sha 2), packOf 1, bundleOf 1⟩

/-- What was pushed in the run that moves the ref back, and in the one that moves it forward. -/
def backPublications : List Publication := [pairPublication, backPublication]

def forwardPublications : List Publication :=
  [⟨sha 1, none, packOf 1, bundleOf 1⟩, ⟨sha 2, some (sha 1), packOf 2, bundleOf 2⟩]

theorem created_eq :
    initialRepoState signerCrypto params signerKey "" "" main = some created := by
  obtain ⟨s, hs⟩ := @exists_initialRepoState signerCrypto params signerKey "" "" main
    (by decide) (by decide) (by decide)
  rw [hs]
  simp only [initialRepoState, Option.bind_eq_bind, Option.bind_eq_some_iff, Option.some.injEq] at hs
  obtain ⟨_, hn, _, hd, _, hb, _, hl, _, ha, _, hu, rfl⟩ := hs
  simp only [created, hn, hd, hb, hl, ha, hu]
  rfl

theorem created_accepted : Accepted signerCrypto params created := by
  obtain ⟨-, -, -, hmade⟩ := initialRepoState_made created_eq
  exact (hmade (by decide) (by decide) (by decide)).accepted signer_verifies params_prefixOk

theorem paired_accepted : Accepted signerCrypto params paired :=
  push_accepted (by decide) created_accepted rfl

theorem created_main : created.refs[main]? = none := Std.ExtTreeMap.getElem?_empty

theorem created_seq : seenSeq created main = 0 := by
  rw [seenSeq, created_main]
  rfl

theorem paired_seq : seenSeq paired main = 1 := by
  have hmax : (seenSeq created main).toNat + 1 < 2 ^ 64 := by
    rw [created_seq]
    decide
  rw [paired, seenSeq_pushed hmax, created_seq]
  rfl

theorem movedBack_seq : seenSeq movedBack main = 2 := by
  have hmax : (seenSeq paired main).toNat + 1 < 2 ^ 64 := by
    rw [paired_seq]
    decide
  rw [movedBack, seenSeq_pushed hmax, paired_seq]
  rfl

theorem paired_main : (paired.refs[main]?).map (·.target) = some (sha 2) := by
  rw [paired, pushed_main (by rw [created_seq]; decide)]
  rfl

theorem movedBack_main : (movedBack.refs[main]?).map (·.target) = some (sha 1) := by
  rw [movedBack, pushed_main (by rw [paired_seq]; decide)]
  rfl

/-- A branch that `paired` does not have. -/
def dev : RefName := "refs/heads/dev"

theorem paired_dev : paired.refs[dev]? = none := by
  rw [paired, pushed_other (by decide)]
  exact Std.ExtTreeMap.getElem?_empty

theorem pushPair_spec :
    parsePushSpec "refs/heads/main:refs/heads/main" = .ok (false, main, main) := by decide

theorem pushBack_spec :
    parsePushSpec "+refs/heads/main:refs/heads/main" = .ok (true, main, main) := by decide

theorem dev_spec : parsePushSpec "refs/heads/dev:refs/heads/dev" = .ok (false, dev, dev) := by
  decide

def pairTrace : List (Transition RepoState PushCall) := [⟨created, pushPair, paired⟩]

def backTrace : List (Transition RepoState PushCall) :=
  [⟨created, pushPair, paired⟩, ⟨paired, pushBack, movedBack⟩]

theorem pair_run : Run (OwnerPush signerCrypto params signerKey) created pairTrace paired :=
  run_sent .nil (push_sent (k := 2) pushPair_spec rfl (by decide)
    (by rw [created_main]; nofun) created_accepted rfl)

theorem back_run : Run (OwnerPush signerCrypto params signerKey) created backTrace movedBack :=
  run_sent pair_run (push_sent (k := 1) pushBack_spec rfl (by decide)
    (by rw [paired_main]; decide) paired_accepted rfl)

theorem pushPair_publications :
    pushPair.publications signerCrypto params signerKey created = [pairPublication] := by
  refine (push_publications pushPair_spec rfl (by decide) ?_ created_accepted rfl).trans ?_
  · rw [created_main]
    nofun
  · rw [created_main]
    rfl

theorem pushBack_publications :
    pushBack.publications signerCrypto params signerKey paired = [backPublication] := by
  refine (push_publications pushBack_spec rfl (by decide) ?_ paired_accepted rfl).trans ?_
  · rw [paired_main]
    decide
  · rw [paired_main]
    rfl

theorem pair_publications : publications signerCrypto params signerKey pairTrace = [pairPublication] := by
  rw [publications, pairTrace, List.flatMap_singleton, pushPair_publications]

theorem back_publications :
    publications signerCrypto params signerKey backTrace = backPublications := by
  rw [publications, backTrace, List.flatMap_cons, List.flatMap_singleton, pushPair_publications,
    pushBack_publications]
  rfl

/-! The repositories of the owner and of the receiver. -/

theorem pairGraph_two : pairGraph (sha 2) = .commit ⟨sha 3, [sha 1], [], []⟩ := if_pos rfl

theorem pairGraph_one : pairGraph (sha 1) = .commit ⟨sha 3, [], [], []⟩ := by
  rw [pairGraph, if_neg (by decide), if_pos rfl]

theorem pairGraph_other {c : CommitHash} (h₂ : c ≠ sha 2) (h₁ : c ≠ sha 1) :
    pairGraph c = .tree [] := by
  rw [pairGraph, if_neg h₂, if_neg h₁]

theorem pair_acyclic : ∀ a, ∀ b ∈ (pairGraph a).links, ¬ Reach pairGraph b a := by
  refine acyclic_of_rank (fun c => if c = sha 2 then 2 else if c = sha 1 then 1 else 0) ?_
  intro a b hb
  by_cases h₂ : a = sha 2
  · subst h₂
    rw [pairGraph_two] at hb
    rcases List.mem_cons.mp hb with rfl | hb
    · decide
    · cases List.mem_singleton.mp hb
      decide
  · by_cases h₁ : a = sha 1
    · subst h₁
      rw [pairGraph_one] at hb
      cases List.mem_singleton.mp hb
      decide
    · rw [pairGraph_other h₂ h₁] at hb
      cases hb

/-- The parent of the commit 2 is a commit. -/
theorem pair_parents {c : CommitHash} {co : CommitObject} (hc : pairGraph c = .commit co) :
    ∀ q ∈ co.parents, ∃ co', pairGraph q = .commit co' := by
  intro q hq
  by_cases h₂ : c = sha 2
  · subst h₂
    rw [pairGraph_two] at hc
    cases hc
    cases List.mem_singleton.mp hq
    exact ⟨_, pairGraph_one⟩
  · by_cases h₁ : c = sha 1
    · subst h₁
      rw [pairGraph_one] at hc
      cases hc
      cases hq
    · rw [pairGraph_other h₂ h₁] at hc
      cases hc

/-- A repository that installs the packs of the publications. -/
noncomputable def pairGit (F : List Publication) : Git (Set CommitHash) :=
  refGit pairGraph (packsOf pairGraph F)

/-- Two publications that have nothing in common. -/
theorem pair_delivered {p₁ p₂ : Publication} (hpack : p₁.pack ≠ p₂.pack)
    (hbundle : p₁.bundle ≠ p₂.bundle)
    (hids : signerCrypto.blake3 p₁.bundle.encoding ≠ signerCrypto.blake3 p₂.bundle.encoding) :
    Delivered pairGraph (packsOf pairGraph [p₁, p₂]) (pairGit [p₁, p₂]) id (netOf [p₁, p₂])
      signerCrypto [p₁, p₂] := by
  have heq : ∀ {α : Type} (f : Publication → α), f p₁ ≠ f p₂ →
      ∀ p ∈ [p₁, p₂], ∀ q ∈ [p₁, p₂], f p = f q → p = q := by
    intro α f hne p hp q hq h
    simp only [List.mem_cons, List.not_mem_nil, or_false] at hp hq
    rcases hp with rfl | rfl <;> rcases hq with rfl | rfl
    · rfl
    · exact absurd h hne
    · exact absurd h.symm hne
    · rfl
  exact delivered_netOf pair_acyclic (fun _ _ => pair_parents) (heq _ hpack) (heq _ hbundle)
    (heq (fun p => signerCrypto.blake3 p.bundle.encoding) hids)

theorem back_delivered : Delivered pairGraph (packsOf pairGraph backPublications)
    (pairGit backPublications) id (netOf backPublications) signerCrypto backPublications :=
  pair_delivered (by decide) (by decide) (by decide)

theorem forward_delivered : Delivered pairGraph (packsOf pairGraph forwardPublications)
    (pairGit forwardPublications) id (netOf forwardPublications) signerCrypto
    forwardPublications :=
  pair_delivered (by decide) (by decide) (by decide)

/-! ### Forward -/

/-- The states after the two pushes. -/
def pushedOne : RepoState := mergeState created (pushDelta main 1 1 (seenSeq created main + 1))

def forwarded : RepoState := mergeState pushedOne (pushDelta main 2 2 (seenSeq pushedOne main + 1))

def pushOne : PushCall := onePush "refs/heads/main:refs/heads/main" 1 1

def forwardTrace : List (Transition RepoState PushCall) :=
  [⟨created, pushOne, pushedOne⟩, ⟨pushedOne, pushPair, forwarded⟩]

theorem pushedOne_main : (pushedOne.refs[main]?).map (·.target) = some (sha 1) := by
  rw [pushedOne, pushed_main (by rw [created_seq]; decide)]
  rfl

theorem pushedOne_seq : seenSeq pushedOne main = 1 := by
  have hmax : (seenSeq created main).toNat + 1 < 2 ^ 64 := by
    rw [created_seq]
    decide
  rw [pushedOne, seenSeq_pushed hmax, created_seq]
  rfl

theorem forwarded_main : (forwarded.refs[main]?).map (·.target) = some (sha 2) := by
  rw [forwarded, pushed_main (by rw [pushedOne_seq]; decide)]
  rfl

theorem pushedOne_accepted : Accepted signerCrypto params pushedOne :=
  push_accepted (by decide) created_accepted rfl

theorem pushOne_run : Run (OwnerPush signerCrypto params signerKey) created
    [⟨created, pushOne, pushedOne⟩] pushedOne :=
  run_sent .nil (push_sent (k := 1) pushPair_spec rfl (by decide) (by rw [created_main]; nofun)
    created_accepted rfl)

theorem forward_run :
    Run (OwnerPush signerCrypto params signerKey) created forwardTrace forwarded :=
  run_sent pushOne_run (push_sent (k := 2) pushPair_spec rfl (by decide)
    (by rw [pushedOne_main]; decide) pushedOne_accepted rfl)

theorem pushOne_publications : pushOne.publications signerCrypto params signerKey created =
    [⟨sha 1, none, packOf 1, bundleOf 1⟩] := by
  refine (push_publications pushPair_spec rfl (by decide) ?_ created_accepted rfl).trans ?_
  · rw [created_main]
    nofun
  · rw [created_main]
    rfl

theorem forward_publications :
    publications signerCrypto params signerKey forwardTrace = forwardPublications := by
  have hpair : pushPair.publications signerCrypto params signerKey pushedOne =
      [⟨sha 2, some (sha 1), packOf 2, bundleOf 2⟩] := by
    refine (push_publications pushPair_spec rfl (by decide) ?_ pushedOne_accepted rfl).trans ?_
    · rw [pushedOne_main]
      decide
    · rw [pushedOne_main]
  rw [publications, forwardTrace, List.flatMap_cons, List.flatMap_singleton, pushOne_publications,
    hpair]
  rfl

def forwardTips : List (ObjectBundleId × CommitHash) :=
  (collectBundleTipExtensions forwarded).toList

theorem forward_advertises : Advertises signerCrypto forwardPublications forwarded :=
  forward_publications ▸ run_advertises created_eq forward_run

/-- The packs that a fetch takes for the two commits. -/
theorem forward_tipPack {p : Publication} (hp : p ∈ forwardPublications)
    (htip : p.tip ∈ p.objects pairGraph) :
    tipPack pairGraph signerCrypto forwardPublications forwardTips p.tip = p.objects pairGraph := by
  obtain ⟨q, hq, hqp, heq⟩ := forward_advertises.exists_tipPack forward_delivered (.refl _) hp htip
  have hpq : q = p := by
    simp only [forwardPublications, List.mem_cons, List.not_mem_nil, or_false] at hp hq
    rcases hp with rfl | rfl <;> rcases hq with rfl | rfl
    · rfl
    · exact absurd hqp (by decide)
    · exact absurd hqp (by decide)
    · rfl
  exact hpq ▸ heq

/-- The first round brings the commit 2, the second one what it was pushed without. -/
theorem forward_suffice : PacksSuffice pairGraph
    (tipPack pairGraph signerCrypto forwardPublications forwardTips) (sha 2) := by
  have hback : ¬ Reach pairGraph (sha 1) (sha 2) := by
    refine pair_acyclic (sha 2) (sha 1) ?_
    rw [pairGraph_two]
    exact List.mem_cons_of_mem _ (List.mem_singleton_self _)
  have hone : tipPack pairGraph signerCrypto forwardPublications forwardTips (sha 1) =
      {o | Reach pairGraph (sha 1) o ∧ ∀ h ∈ none, ¬ Reach pairGraph h o} :=
    forward_tipPack List.mem_cons_self ⟨.refl, nofun⟩
  have htwo : tipPack pairGraph signerCrypto forwardPublications forwardTips (sha 2) =
      {o | Reach pairGraph (sha 2) o ∧ ∀ h ∈ some (sha 1), ¬ Reach pairGraph h o} :=
    forward_tipPack (List.mem_cons_of_mem _ List.mem_cons_self)
      ⟨.refl, fun b hb => Option.mem_some_iff.mp hb ▸ hback⟩
  intro o ho
  by_cases h : Reach pairGraph (sha 1) o
  · -- the parent is met, and no pack of the first round holds it
    refine ⟨1, sha 1, .inr ⟨?_, ?_⟩, hone ▸ ⟨h, nofun⟩⟩
    · have hpeels : PeelsIn pairGraph (Held (tipPack pairGraph signerCrypto forwardPublications
          forwardTips) {sha 2}) (sha 2) ⟨sha 3, [sha 1], [], []⟩ := by
        refine .commit ⟨sha 2, rfl, htwo ▸ ⟨.refl, fun b hb => ?_⟩⟩ pairGraph_two
        exact Option.mem_some_iff.mp hb ▸ hback
      have hwant : Met pairGraph (Held (tipPack pairGraph signerCrypto forwardPublications
          forwardTips) {sha 2}) {sha 2} (sha 2) := .want rfl
      exact hwant.parent hpeels (List.mem_singleton_self _)
    · rintro ⟨f, rfl, hf⟩
      exact (htwo ▸ hf).2 (sha 1) rfl .refl
  · refine ⟨0, sha 2, rfl, htwo ▸ ⟨ho, fun b hb => ?_⟩⟩
    exact Option.mem_some_iff.mp hb ▸ h

end Sample

/-- The second pack leaves out what the first one brings: the fetch of the ref is complete. -/
theorem fetch_complete_forward :
    FetchCompletes Sample.pairGraph (Sample.pairGit Sample.forwardPublications) id
      (netOf Sample.forwardPublications) Sample.forwarded ∅ (Sample.sha 2) Sample.main
      Sample.forwardTips := by
  obtain ⟨e, he, ht⟩ := Option.map_eq_some_iff.mp Sample.forwarded_main
  have hd : Delivered Sample.pairGraph (packsOf Sample.pairGraph Sample.forwardPublications)
      (Sample.pairGit Sample.forwardPublications) id (netOf Sample.forwardPublications)
      Sample.signerCrypto (publications Sample.signerCrypto Sample.params Sample.signerKey
        Sample.forwardTrace) := by
    rw [Sample.forward_publications]
    exact Sample.forward_delivered
  have hiff := fetch_complete_iff Sample.created_eq Sample.forward_run hd he rfl
    (List.Perm.refl Sample.forwardTips)
  rw [ht, Sample.forward_publications] at hiff
  exact hiff.mpr Sample.forward_suffice

namespace Sample

/-! ### Back -/

def backTips : BTreeMap CommitHash ObjectBundleId :=
  tipToBundle (collectBundleTipExtensions movedBack).toList

def backId : ObjectBundleId := (bundleOf 1).id signerCrypto

/-- The variables before the loop, and after the download of the empty pack. -/
def unmoved : FetchState (Set CommitHash) := ⟨∅, {sha 1}, ∅, ∅, 1⟩

def moved : FetchState (Set CommitHash) :=
  ⟨∅ ∪ packsOf pairGraph backPublications (packOf 1), {sha 1}, ∅, insert backId ∅, 2⟩

theorem back_advertises :
    Advertises signerCrypto backPublications movedBack := by
  rw [← back_publications]
  exact run_advertises created_eq back_run

theorem backTips_lookup : backTips[sha 1]? = some backId := by
  have hback : backPublication ∈ backPublications := List.mem_cons_of_mem _ List.mem_cons_self
  -- the tip of the empty pack's bundle is 1, and 1 is the tip of no other bundle
  have htip : ∀ {c}, (collectBundleTipExtensions movedBack)[backId]? = some c → c = sha 1 := by
    intro c hc
    obtain ⟨p, hp, hid, rfl⟩ := back_advertises.tip hc
    simp only [backPublications, List.mem_cons, List.not_mem_nil, or_false] at hp
    rcases hp with rfl | rfl
    · exact absurd hid (by decide)
    · rfl
  have hid : ∀ {id}, (collectBundleTipExtensions movedBack)[id]? = some (sha 1) → id = backId := by
    intro id hid
    obtain ⟨p, hp, rfl, h⟩ := back_advertises.tip hid
    simp only [backPublications, List.mem_cons, List.not_mem_nil, or_false] at hp
    rcases hp with rfl | rfl
    · exact absurd h (by decide)
    · rfl
  obtain ⟨c, hc⟩ := back_advertises.exists_tip hback
  obtain rfl := htip hc
  have hmem := (mem_bundleTips (.refl (collectBundleTipExtensions movedBack).toList)).mpr hc
  obtain ⟨id, hlook⟩ := exists_collect (f := fun p => some (p.2, p.1)) hmem rfl
  have heq := hid (of_tipToBundle (.refl _) hlook)
  exact heq ▸ hlook

theorem history_one {c : CommitHash} (h : History pairGraph (sha 1) c) : c = sha 1 := by
  induction h with
  | refl => rfl
  | tail _ hl ih =>
      rw [ih, pairGraph_one] at hl
      cases hl

/-- What the commit 1 reaches, the commit 2 reaches. -/
theorem moved_db : moved.db = ∅ := by
  have hpacks : packsOf pairGraph backPublications (packOf 1) = backPublication.objects pairGraph :=
    back_delivered.packs backPublication (List.mem_cons_of_mem _ List.mem_cons_self)
  have hlink : Reach pairGraph (sha 2) (sha 1) := by
    refine .single ?_
    rw [pairGraph_two]
    exact List.mem_cons_of_mem _ (List.mem_singleton_self _)
  rw [moved, Set.empty_union, hpacks]
  refine Set.eq_empty_of_forall_notMem fun o ho => ?_
  exact ho.2 (sha 2) rfl (hlink.trans ho.1)

theorem moved_stuck : Stuck (pairGit backPublications) backTips moved := by
  have hlook : ∀ c, lookUp (pairGit backPublications) moved.db c = .ok none := fun c => by
    refine refGit_spec.lookUp_missing ?_
    rw [moved_db]
    exact Set.notMem_empty c
  have hdown : ∀ id, backTips[sha 1]? = some id → id ∈ moved.downloaded := fun id hid => by
    rw [backTips_lookup] at hid
    cases hid
    exact Finset.mem_insert_self _ _
  refine ⟨fun c hc => ?_, fun c _ => ⟨_, hlook c⟩, ⟨sha 1, ⟨?_, hlook _⟩, ?_⟩, fun c hc => ?_⟩
  · cases Finset.mem_singleton.mp hc
    exact hdown
  · exact .root (Finset.mem_toList.mpr (Finset.mem_singleton_self _)) (Finset.notMem_empty _)
  · exact mem_iff_getElem?.mpr ⟨_, backTips_lookup⟩
  · obtain ⟨w, hw, hwc⟩ := refGit_spec.visited_history hc.1
    cases Finset.mem_singleton.mp hw
    cases history_one hwc
    exact hdown

theorem unmoved_step :
    Loop.Step (FetchPass (pairGit backPublications) (netOf backPublications) movedBack backTips)
      unmoved moved := by
  have hrecord : (movedBack.objectIndex[backId]?).map (·.bundle) = some (bundleOf 1) := by
    decide +kernel
  obtain ⟨r, hr, hb⟩ := Option.map_eq_some_iff.mp hrecord
  refine first_step backTips_lookup hr ?_ rfl
  rw [hb]
  exact back_delivered.intact backPublication (List.mem_cons_of_mem _ List.mem_cons_self) 1

end Sample

/-- The owner pushed the commit and moved the ref back: the fetch of the ref never ends. -/
theorem fetch_moved_back :
    initialRepoState Sample.signerCrypto Sample.params Sample.signerKey "" "" Sample.main =
      some Sample.created ∧
    Run (OwnerPush Sample.signerCrypto Sample.params Sample.signerKey) Sample.created Sample.backTrace
      Sample.movedBack ∧
    Delivered Sample.pairGraph (packsOf Sample.pairGraph Sample.backPublications)
      (Sample.pairGit Sample.backPublications) id (netOf Sample.backPublications)
      Sample.signerCrypto (publications Sample.signerCrypto Sample.params Sample.signerKey
        Sample.backTrace) ∧
    (Sample.movedBack.refs[Sample.main]?).map (·.target) = some (Sample.sha 1) ∧
    fetchStart (Sample.pairGit Sample.backPublications) (netOf Sample.backPublications)
      Sample.movedBack ∅ [(hexEncodeCommit (Sample.sha 1), Sample.main)] = .ok Sample.unmoved ∧
    ¬ Loop.Terminates (FetchPass (Sample.pairGit Sample.backPublications)
      (netOf Sample.backPublications) Sample.movedBack
      (tipToBundle (collectBundleTipExtensions Sample.movedBack).toList)) Sample.unmoved := by
  refine ⟨Sample.created_eq, Sample.back_run, ?_, Sample.movedBack_main,
    Sample.back_advertises.fetchStart, fun h => ?_⟩
  · rw [Sample.back_publications]
    exact Sample.back_delivered
  · exact Loop.not_terminates_of_recurs (fun _ h => h.step) Sample.moved_stuck
      (h.reaches (.single Sample.unmoved_step))

end FreenetGit
