/-
# `FreenetGit.Convergence` — replicas that heard the same states

Replicas merge what they hear in any order and any grouping.  The components
with sequence numbers end equal: two entries of one slot draw only under one
signature, and a signature of the owner stands for one statement, so that the
winner of a slot is unique (`accepted_noDraw`).  The bundle map follows the
other rule, first record wins, and depends on the order as soon as two records
of one bundle differ.
-/
import FreenetGit.Merge
import FreenetGit.Sample

namespace FreenetGit

open Lib

variable {cr : Crypto} {params : RepoParams}

/-! ## One signature, one entry -/

/-- One signature of the owner stands for one statement. -/
theorem Signed.unique (hed : OnePayload cr) {owner : PublicKey} {st st' : Statement}
    {sig : Signature} (hcr : (st.hashed ∪ st'.hashed).InjOn cr.blake3)
    (h : Signed cr params owner st sig) (h' : Signed cr params owner st' sig) : st = st' := by
  obtain ⟨p, hp, hv⟩ := h
  obtain ⟨p', hp', hv'⟩ := h'
  have hpp : p = p' := hed owner p p' sig hv hv'
  exact (Statement.payload_inj hcr hp (hpp ▸ hp')).2

theorem Slot.hashed_statement : ∀ (σ : Slot) (e : σ.Entry), (σ.statement e).hashed = ∅
  | .name, _ | .description, _ | .defaultBranch, _ | .forcePushAllowed, _ | .acl, _
  | .upgrade, _ | .ref _, _ | .extension _, _ => rfl

/-- In accepted states of one owner an entry is determined by what it says and
its signature. -/
theorem Accepted.entry_eq {a b : RepoState} (ha : Accepted cr params a)
    (hb : Accepted cr params b) (ho : a.owner = b.owner) : ∀ {σ : Slot} {e e' : σ.Entry},
    a.at σ = some e → b.at σ = some e' → σ.statement e = σ.statement e' →
    σ.signature e = σ.signature e' → e = e'
  | .name, ⟨_, _, _⟩, ⟨_, _, _⟩, _, _, hst, hsig | .description, ⟨_, _, _⟩, ⟨_, _, _⟩, _, _, hst, hsig
  | .defaultBranch, ⟨_, _, _⟩, ⟨_, _, _⟩, _, _, hst, hsig
  | .forcePushAllowed, ⟨_, _, _⟩, ⟨_, _, _⟩, _, _, hst, hsig
  | .acl, ⟨_, _, _⟩, ⟨_, _, _⟩, _, _, hst, hsig | .upgrade, ⟨_, _, _⟩, ⟨_, _, _⟩, _, _, hst, hsig
  | .extension _, ⟨_, _, _⟩, ⟨_, _, _⟩, _, _, hst, hsig => by
      cases hst
      cases hsig
      rfl
  | .ref n, ⟨_, _, u, _, _⟩, ⟨_, _, u', _, _⟩, h, h', hst, hsig => by
      have hu : u = a.owner := (ha.refOk n _ h).2
      have hu' : u' = b.owner := (hb.refOk n _ h').2
      cases hst
      cases hsig
      rw [hu, hu', ho]

/-- In accepted states of one owner the entries of a slot do not draw. -/
theorem accepted_noDraw (hed : OnePayload cr) {owner : PublicKey} {S : Set RepoState}
    (hS : ∀ s ∈ S, Accepted cr params s ∧ s.owner = owner) (σ : Slot) :
    σ.picker.NoDraw (MergeTree.entries (·.at σ) S) := by
  rintro e ⟨a, ha, hae⟩ e' ⟨b, hb, hbe⟩ hw hw'
  obtain ⟨ha, hao⟩ := hS a ha
  obtain ⟨hb, hbo⟩ := hS b hb
  have hsig : σ.signature e = σ.signature e' := (pickHigherSeq_draw hw hw').2
  have hse := hao ▸ ha.signed _ _ (says_at hae)
  have hse' := hbo ▸ hb.signed _ _ (says_at hbe)
  have hst : σ.statement e = σ.statement e' :=
    Signed.unique hed (by simp [Slot.hashed_statement]) hse (hsig ▸ hse')
  exact ha.entry_eq hb (hao.trans hbo.symm) hae hbe hst hsig

/-- Trees of merges over the same accepted states agree at every slot. -/
theorem sameSlots_of_leaves (hed : OnePayload cr) {owner : PublicKey} {t u : MergeTree RepoState}
    (ht : ∀ s ∈ t.leaves, Accepted cr params s ∧ s.owner = owner) (hl : t.leaves = u.leaves) :
    SameSlots (t.eval mergeState) (u.eval mergeState) :=
  .of_at fun σ => MergeTree.slot_eq (fun a b => mergeState_at a b σ) hl
    (accepted_noDraw hed ht σ)

/-- **Convergence.**  Over accepted states of one owner, the components with
sequence numbers do not depend on the order, the grouping or the repetitions of
the merges; on them `merge_state` is commutative, associative and idempotent. -/
theorem mergeState_convergence (hed : OnePayload cr) (owner : PublicKey) (S : Set RepoState)
    (hS : ∀ s ∈ S, validateState cr params s = .ok () ∧ s.owner = owner) :
    (∀ t u : MergeTree RepoState, t.leaves ⊆ S → t.leaves = u.leaves →
      SameSlots (t.eval mergeState) (u.eval mergeState)) ∧
    (∀ a ∈ S, ∀ b ∈ S, SameSlots (mergeState a b) (mergeState b a)) ∧
    (∀ a ∈ S, ∀ b ∈ S, ∀ c ∈ S,
      SameSlots (mergeState (mergeState a b) c) (mergeState a (mergeState b c))) ∧
    (∀ a ∈ S, SameSlots (mergeState a a) a) := by
  have trees : ∀ t u : MergeTree RepoState, t.leaves ⊆ S → t.leaves = u.leaves →
      SameSlots (t.eval mergeState) (u.eval mergeState) := fun t u ht hl =>
    sameSlots_of_leaves hed (fun s hs =>
      ⟨validateState_eq_ok.mp (hS s (ht hs)).1, (hS s (ht hs)).2⟩) hl
  refine ⟨trees, fun a ha b hb => ?_, fun a ha b hb c hc => ?_, fun a ha => ?_⟩
  · refine trees (.node (.leaf a) (.leaf b)) (.node (.leaf b) (.leaf a)) ?_ (Set.union_comm _ _)
    rintro s (rfl | rfl)
    exacts [ha, hb]
  · refine trees (.node (.node (.leaf a) (.leaf b)) (.leaf c))
      (.node (.leaf a) (.node (.leaf b) (.leaf c))) ?_ (Set.union_assoc _ _ _)
    rintro s ((rfl | rfl) | rfl)
    exacts [ha, hb, hc]
  · refine trees (.node (.leaf a) (.leaf a)) (.leaf a) ?_ (Set.union_self _)
    rintro s (rfl | rfl) <;> exact ha

/-! Two pushes of the owner that raced to one sequence number. -/

namespace Sample

/-- A state with one ref. -/
def withRef (name : RefName) (e : RefEntry) : RepoState :=
  { RepoState.default with refs := (∅ : BTreeMap RefName RefEntry).insert name e }

/-- An object name that is told from others by its first byte. -/
def sha (n : UInt8) : CommitHash := (zeros 20).set 0 n commitHash_pos

def main : RefName := "refs/heads/main"

def raceA : RepoState := withRef main ⟨sha 1, 1, owner, 0, sig 1⟩

def raceB : RepoState := withRef main ⟨sha 2, 1, owner, 0, sig 2⟩

def raceCrypto : Crypto := crypto [(.ref main (sha 1) 1 0, sig 1), (.ref main (sha 2) 1 0, sig 2)]

theorem withRef_accepted {table : List (Statement × Signature)} {name : RefName} {e : RefEntry}
    (hnodup : (table.map (·.2)).Nodup) (hname : (utf8 name).length ≤ limits.maxRefNameBytes)
    (hmem : (.ref name e.target e.updateSeq e.authEpoch, e.signature) ∈ table)
    (hupdater : e.updater = owner) : Accepted (crypto table) Sample.params (withRef name e) := by
  refine accepted_of_table hnodup rfl (fun st σ hs => ?_) (fun n e' h => (single_eq h).2 ▸ hupdater)
    fun id r h => ?_
  · cases hs with
    | @ref n e' h =>
        obtain ⟨rfl, rfl⟩ := single_eq h
        exact ⟨hmem, hname⟩
    | name h | description h | defaultBranch h | forcePushAllowed h | acl h | upgrade h => cases h
    | bundle h | extension h => cases Std.ExtTreeMap.getElem?_empty.symm.trans h
  · cases Std.ExtTreeMap.getElem?_empty.symm.trans h

/-- Of two entries of one ref, one stays. -/
theorem mergeState_withRef (name : RefName) (e e' : RefEntry) :
    mergeState (withRef name e) (withRef name e') = withRef name (pickRefEntry e e') := by
  refine RepoState.ext_at rfl (fun σ => ?_) (Std.ExtTreeMap.ext_getElem? fun id => ?_)
  · rw [mergeState_at]
    cases σ with
    | ref n =>
        simp only [RepoState.at, withRef, getElem?_insert_eq]
        split <;> rfl
    | extension k => exact congrArg₂ _ Std.ExtTreeMap.getElem?_empty Std.ExtTreeMap.getElem?_empty
    | name | description | defaultBranch | forcePushAllowed | acl | upgrade => rfl
  · rw [mergeState_objectIndex]
    exact congrArg₂ _ Std.ExtTreeMap.getElem?_empty Std.ExtTreeMap.getElem?_empty

theorem race_accepted : ∀ s ∈ ({raceA, raceB} : Set RepoState),
    validateState raceCrypto Sample.params s = .ok () ∧ s.owner = owner := by
  have hnodup : ([1, 2].map sig).Nodup := nodup_sigs (by decide)
  rintro s (rfl | rfl)
  · exact ⟨validateState_eq_ok.mpr (withRef_accepted hnodup (by decide) List.mem_cons_self rfl), rfl⟩
  · exact ⟨validateState_eq_ok.mpr (withRef_accepted hnodup (by decide)
      (List.mem_cons_of_mem _ List.mem_cons_self) rfl), rfl⟩

end Sample

theorem mergeState_convergence_race :
    SameSlots (mergeState Sample.raceA Sample.raceB) (mergeState Sample.raceB Sample.raceA) :=
  (mergeState_convergence (sample_onePayload _) Sample.owner {Sample.raceA, Sample.raceB}
    Sample.race_accepted).2.1 _ (.inl rfl) _ (.inr rfl)

/-! ## The bundle map -/

/-- The byte strings whose hashes name the bundles of a state. -/
def bundleEncodings (s : RepoState) : Set Bytes :=
  {bs | ∃ (id : ObjectBundleId) (r : ObjectBundleRecord),
    s.objectIndex[id]? = some r ∧ bs = r.bundle.encoding}

/-- The record that is first stays, so the order matters where two records differ. -/
theorem mergeState_objectIndex_comm_iff_eq (a b : RepoState) :
    (mergeState a b).objectIndex = (mergeState b a).objectIndex ↔
      ∀ (id : ObjectBundleId) (ra rb : ObjectBundleRecord), a.objectIndex[id]? = some ra →
        b.objectIndex[id]? = some rb → ra = rb := by
  constructor
  · intro h id ra rb ha hb
    have h := congrArg (fun m : BTreeMap ObjectBundleId ObjectBundleRecord => m[id]?) h
    simpa only [mergeState_objectIndex, ha, hb, Option.some_or, Option.some.injEq] using h
  · intro h
    refine Std.ExtTreeMap.ext_getElem? fun id => ?_
    rw [mergeState_objectIndex, mergeState_objectIndex]
    cases ha : a.objectIndex[id]? with
    | none => exact (Option.or_none).symm
    | some ra =>
        cases hb : b.objectIndex[id]? with
        | none => rfl
        | some rb => rw [h id ra rb ha hb]

/-- In accepted states of one owner two records of one bundle can differ in
the epoch and in the signature only. -/
theorem Accepted.record_eq {a b : RepoState} (ha : Accepted cr params a)
    (hb : Accepted cr params b) (ho : a.owner = b.owner)
    (hcr : (bundleEncodings a ∪ bundleEncodings b).InjOn cr.blake3) {id : ObjectBundleId}
    {ra rb : ObjectBundleRecord} (hra : a.objectIndex[id]? = some ra)
    (hrb : b.objectIndex[id]? = some rb) (hep : ra.authEpoch = rb.authEpoch)
    (hsig : ra.signature = rb.signature) : ra = rb := by
  obtain ⟨hida, hbya⟩ := ha.bundleOk id ra hra
  obtain ⟨hidb, hbyb⟩ := hb.bundleOk id rb hrb
  have hbundle : ra.bundle = rb.bundle := ObjectBundle.id_inj hcr (.inl ⟨id, ra, hra, rfl⟩)
    (.inr ⟨id, rb, hrb, rfl⟩) (hida.trans hidb.symm)
  have hby : ra.addedBy = rb.addedBy := by rw [hbya, hbyb, ho]
  cases ra
  cases rb
  simp_all

/-- **The bundle maps of two merge orders** agree exactly when no bundle stands
in both states under another epoch or another signature. -/
theorem mergeState_objectIndex_comm_iff {a b : RepoState}
    (ha : validateState cr params a = .ok ()) (hb : validateState cr params b = .ok ())
    (ho : a.owner = b.owner) (hcr : (bundleEncodings a ∪ bundleEncodings b).InjOn cr.blake3) :
    (mergeState a b).objectIndex = (mergeState b a).objectIndex ↔
      ∀ (id : ObjectBundleId) (ra rb : ObjectBundleRecord), a.objectIndex[id]? = some ra →
        b.objectIndex[id]? = some rb →
          ra.authEpoch = rb.authEpoch ∧ ra.signature = rb.signature := by
  rw [mergeState_objectIndex_comm_iff_eq]
  constructor
  · intro h id ra rb hra hrb
    rw [h id ra rb hra hrb]
    exact ⟨rfl, rfl⟩
  · intro h id ra rb hra hrb
    obtain ⟨hep, hsig⟩ := h id ra rb hra hrb
    exact (validateState_eq_ok.mp ha).record_eq (validateState_eq_ok.mp hb) ho hcr hra hrb hep hsig

/-! Two records of one bundle, signed for two epochs. -/

namespace Sample

def pack : ObjectBundle := .singlePack (zeros 32) 7

/-- A state with one bundle. -/
def withBundle (r : ObjectBundleRecord) : RepoState :=
  { RepoState.default with
    objectIndex := (∅ : BTreeMap ObjectBundleId ObjectBundleRecord).insert (pack.id unsigned) r }

def epochA : RepoState := withBundle ⟨pack, owner, 0, sig 1⟩

def epochB : RepoState := withBundle ⟨pack, owner, 1, sig 2⟩

def epochCrypto : Crypto := crypto [(.bundle pack 0, sig 1), (.bundle pack 1, sig 2)]

theorem withBundle_accepted {table : List (Statement × Signature)} {r : ObjectBundleRecord}
    (hnodup : (table.map (·.2)).Nodup) (hmem : (.bundle r.bundle r.authEpoch, r.signature) ∈ table)
    (hbundle : r.bundle = pack) (hadded : r.addedBy = owner) :
    Accepted (crypto table) Sample.params (withBundle r) := by
  refine accepted_of_table hnodup rfl (fun st σ hs => ?_) (fun n e h => ?_) fun id r' h => ?_
  · cases hs with
    | @bundle id r' h =>
        obtain ⟨-, rfl⟩ := single_eq h
        exact ⟨hmem, trivial⟩
    | name h | description h | defaultBranch h | forcePushAllowed h | acl h | upgrade h => cases h
    | ref h | extension h => cases Std.ExtTreeMap.getElem?_empty.symm.trans h
  · cases Std.ExtTreeMap.getElem?_empty.symm.trans h
  · obtain ⟨rfl, rfl⟩ := single_eq h
    exact ⟨hbundle ▸ rfl, hadded⟩

theorem epoch_accepted : validateState epochCrypto Sample.params epochA = .ok () ∧
    validateState epochCrypto Sample.params epochB = .ok () := by
  have hnodup : ([1, 2].map sig).Nodup := nodup_sigs (by decide)
  exact ⟨validateState_eq_ok.mpr (withBundle_accepted hnodup List.mem_cons_self rfl rfl),
    validateState_eq_ok.mpr (withBundle_accepted hnodup
      (List.mem_cons_of_mem _ List.mem_cons_self) rfl rfl)⟩

theorem bundleEncodings_withBundle (r : ObjectBundleRecord) :
    bundleEncodings (withBundle r) ⊆ {r.bundle.encoding} := by
  rintro _ ⟨id, r', h, rfl⟩
  have h : ((∅ : BTreeMap ObjectBundleId ObjectBundleRecord).insert (pack.id unsigned) r)[id]? =
    some r' := h
  rw [getElem?_insert_eq] at h
  split at h
  · cases h
    rfl
  · cases h

theorem epoch_injOn : (bundleEncodings epochA ∪ bundleEncodings epochB).InjOn
    epochCrypto.blake3 := by
  have h : ∀ bs ∈ bundleEncodings epochA ∪ bundleEncodings epochB, bs = pack.encoding := by
    rintro bs (h | h) <;> exact bundleEncodings_withBundle _ h
  intro x hx y hy _
  rw [h x hx, h y hy]

end Sample

theorem mergeState_objectIndex_comm_iff_epoch :
    (mergeState Sample.epochA Sample.epochB).objectIndex =
        (mergeState Sample.epochB Sample.epochA).objectIndex ↔
      ∀ (id : ObjectBundleId) (ra rb : ObjectBundleRecord),
        Sample.epochA.objectIndex[id]? = some ra → Sample.epochB.objectIndex[id]? = some rb →
          ra.authEpoch = rb.authEpoch ∧ ra.signature = rb.signature :=
  mergeState_objectIndex_comm_iff Sample.epoch_accepted.1 Sample.epoch_accepted.2 rfl
    Sample.epoch_injOn

theorem mergeState_objectIndex_order :
    validateState Sample.epochCrypto Sample.params Sample.epochA = .ok () ∧
    validateState Sample.epochCrypto Sample.params Sample.epochB = .ok () ∧
    Sample.epochA.owner = Sample.epochB.owner ∧
    (mergeState Sample.epochA Sample.epochB).objectIndex ≠
      (mergeState Sample.epochB Sample.epochA).objectIndex :=
  ⟨Sample.epoch_accepted.1, Sample.epoch_accepted.2, rfl, by decide +kernel⟩

end FreenetGit
