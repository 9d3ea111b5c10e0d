/-
# `FreenetGit.Monotone` — what the documentation calls monotone

Three fields are documented as moving one way only: the target of a ref moves
under a strictly higher number, the grants of the ACL are only ever extended,
and the successor pointer is set once.  `update_state` compares nothing but
numbers and signatures, so that each promise is as good as the entries of the
delta that take a place (`mergeState_rel_iff`).
-/
import FreenetGit.Contract

namespace FreenetGit

open Lib

variable {cr : Crypto} {params : RepoParams} {s d s' : RepoState}

/-- A reflexive relation holds between the entries of a slot before and after a
merge exactly when the entry that takes the place stands in it. -/
theorem mergeState_rel_iff (σ : Slot) {R : σ.Entry → σ.Entry → Prop} (hR : ∀ c, R c c) :
    (∀ c e, s.at σ = some c → (mergeState s d).at σ = some e → R c e) ↔
      ∀ c e, s.at σ = some c → d.at σ = some e → ¬ σ.picker.wins c e = true → R c e := by
  rw [mergeState_at]
  exact σ.picker.pickOpt_rel_iff hR

/-! ## Refs -/

/-- Every ref that points elsewhere afterwards has a higher number. -/
def RefsMoveUp (s s' : RepoState) : Prop :=
  ∀ (n : RefName) (c e : RefEntry), s.refs[n]? = some c → s'.refs[n]? = some e →
    c.target ≠ e.target → c.updateSeq < e.updateSeq

/-- The delta has an entry that points a ref elsewhere under the number the ref
has, with a signature that is lower. -/
def Undercuts (d s : RepoState) : Prop :=
  ∃ (n : RefName) (c e : RefEntry), s.refs[n]? = some c ∧ d.refs[n]? = some e ∧
    c.target ≠ e.target ∧ e.updateSeq = c.updateSeq ∧ compare e.signature c.signature = .lt

/-- An entry that loses has a lower number, or the same one and a higher signature. -/
theorem not_pickHigherSeq {aSeq bSeq : UInt64} {aSig bSig : Signature} :
    ¬ pickHigherSeq aSeq aSig bSeq bSig = true ↔
      aSeq < bSeq ∨ bSeq = aSeq ∧ compare bSig aSig = .lt := by
  rw [pickHigherSeq_iff, not_or, UInt64.not_lt, not_and, UInt64.le_iff_lt_or_eq]
  constructor
  · rintro ⟨hlt | heq, hsig⟩
    · exact .inl hlt
    · exact .inr ⟨heq.symm, Std.OrientedCmp.lt_of_not_isLE (hsig heq)⟩
  · rintro (hlt | ⟨rfl, hsig⟩)
    · exact ⟨.inl hlt, fun heq => absurd (heq ▸ hlt) (UInt64.lt_irrefl _)⟩
    · exact ⟨.inr rfl, fun _ => Std.OrientedCmp.not_isLE_of_lt hsig⟩

/-- **A ref moves under a strictly higher number** exactly when the delta does
not undercut it. -/
theorem refs_moveUp_iff (h : updateState cr params s d = .ok s') :
    RefsMoveUp s s' ↔ ¬ Undercuts d s := by
  obtain ⟨rfl, -⟩ := updateState_eq_ok.mp h
  have hslot := fun n : RefName => mergeState_rel_iff (s := s) (d := d) (.ref n)
    (R := fun c e : RefEntry => c.target ≠ e.target → c.updateSeq < e.updateSeq)
    fun c hne => absurd rfl hne
  refine (forall_congr' hslot).trans ⟨?_, ?_⟩
  · rintro hup ⟨n, c, e, hc, he, hne, hseq, hsig⟩
    have hlt := hup n c e hc he (not_pickHigherSeq.mpr (.inr ⟨hseq, hsig⟩)) hne
    exact UInt64.lt_irrefl _ (hseq ▸ hlt)
  · intro hund n c e hc he hloses hne
    rcases not_pickHigherSeq.mp hloses with hlt | ⟨hseq, hsig⟩
    · exact hlt
    · exact absurd ⟨n, c, e, hc, he, hne, hseq, hsig⟩ hund

theorem Sample.update_raceB_raceA :
    updateState Sample.raceCrypto Sample.params Sample.raceB Sample.raceA = .ok Sample.raceA :=
  updateState_eq_ok.mpr ⟨Sample.mergeState_raceB_raceA.symm,
    validateState_eq_ok.mp (Sample.race_accepted _ (.inl rfl)).1⟩

theorem refs_moveUp_iff_race :
    RefsMoveUp Sample.raceB Sample.raceA ↔ ¬ Undercuts Sample.raceA Sample.raceB :=
  refs_moveUp_iff Sample.update_raceB_raceA

/-- The push that comes second moves the ref under the number it has. -/
theorem refs_moveLevel :
    validateState Sample.raceCrypto Sample.params Sample.raceB = .ok () ∧
    updateState Sample.raceCrypto Sample.params Sample.raceB Sample.raceA = .ok Sample.raceA ∧
    ¬ RefsMoveUp Sample.raceB Sample.raceA := by
  refine ⟨(Sample.race_accepted _ (.inr rfl)).1, Sample.update_raceB_raceA, fun hup => ?_⟩
  have hlt := hup Sample.main _ _ (getElem?_insert_eq.trans (if_pos rfl))
    (getElem?_insert_eq.trans (if_pos rfl)) (by decide)
  exact UInt64.lt_irrefl _ hlt

/-! ## The ACL and the successor -/

/-- The grant log of `new` continues that of `old`: the epoch does not go back,
writers stay, and what is revoked stays revoked. -/
structure AclState.Extends (old new : AclState) : Prop where
  epoch : old.epoch ≤ new.epoch
  grants : ∀ (w : PublicKey) (g : WriterGrant), old.grants[w]? = some g →
    ∃ g', new.grants[w]? = some g' ∧ (g.revokedAtEpoch.isSome → g'.revokedAtEpoch.isSome)

theorem AclState.Extends.refl (a : AclState) : a.Extends a :=
  ⟨UInt64.le_refl _, fun _ g hg => ⟨g, hg, id⟩⟩

theorem AclState.Extends.trans {a b c : AclState} (hab : a.Extends b) (hbc : b.Extends c) :
    a.Extends c where
  epoch := UInt64.le_trans hab.epoch hbc.epoch
  grants w g hg := by
    obtain ⟨g₁, hg₁, hrev₁⟩ := hab.grants w g hg
    obtain ⟨g₂, hg₂, hrev₂⟩ := hbc.grants w g₁ hg₁
    exact ⟨g₂, hg₂, hrev₂ ∘ hrev₁⟩

/-- A successor that is named stays named. -/
def KeepsSuccessor (old new : Option RepoKey) : Prop := ∀ k, old = some k → new = some k

/-- The append-only fields of `s` are continued in `s'`. -/
structure AppendOnly (s s' : RepoState) : Prop where
  acl : ∀ c, s.acl = some c → ∃ e, s'.acl = some e ∧ c.value.Extends e.value
  upgrade : ∀ c, s.upgrade = some c → ∃ e, s'.upgrade = some e ∧ KeepsSuccessor c.value e.value

theorem AppendOnly.refl (s : RepoState) : AppendOnly s s :=
  ⟨fun c hc => ⟨c, hc, .refl _⟩, fun c hc => ⟨c, hc, fun _ => id⟩⟩

theorem AppendOnly.trans {a b c : RepoState} (hab : AppendOnly a b) (hbc : AppendOnly b c) :
    AppendOnly a c where
  acl f hf := by
    obtain ⟨f₁, hf₁, hext₁⟩ := hab.acl f hf
    obtain ⟨f₂, hf₂, hext₂⟩ := hbc.acl f₁ hf₁
    exact ⟨f₂, hf₂, hext₁.trans hext₂⟩
  upgrade f hf := by
    obtain ⟨f₁, hf₁, hkeep₁⟩ := hab.upgrade f hf
    obtain ⟨f₂, hf₂, hkeep₂⟩ := hbc.upgrade f₁ hf₁
    exact ⟨f₂, hf₂, fun k hk => hkeep₂ k (hkeep₁ k hk)⟩

/-- The entry beats the one that is there: a higher number, or the same one and
a lower signature. -/
def SignedField.Beats {T : Type} (e c : SignedField T) : Prop :=
  c.updateSeq < e.updateSeq ∨ e.updateSeq = c.updateSeq ∧ compare e.signature c.signature = .lt

/-- Where the delta replaces the grant log or the successor, it continues what it
replaces. -/
structure Continues (d s : RepoState) : Prop where
  acl : ∀ c e, s.acl = some c → d.acl = some e → e.Beats c → c.value.Extends e.value
  upgrade : ∀ c e, s.upgrade = some c → d.upgrade = some e → e.Beats c →
    KeepsSuccessor c.value e.value

/-- A field that is set stays set, and it continues what it was exactly when the
entry that takes its place does. -/
theorem mergeState_continues_iff (σ : Slot) {R : σ.Entry → σ.Entry → Prop} (hR : ∀ c, R c c) :
    (∀ c, s.at σ = some c → ∃ e, (mergeState s d).at σ = some e ∧ R c e) ↔
      ∀ c e, s.at σ = some c → d.at σ = some e → ¬ σ.picker.wins c e = true → R c e := by
  refine Iff.trans ⟨fun h c e hc he => ?_, fun h c hc => ?_⟩ (mergeState_rel_iff σ hR)
  · obtain ⟨e', he', hce⟩ := h c hc
    rw [he] at he'
    cases he'
    exact hce
  · obtain ⟨e, he, -⟩ := σ.picker.pickOpt_some_left c (d.at σ)
    rw [← hc, ← mergeState_at] at he
    exact ⟨e, he, h c e hc he⟩

theorem appendOnly_mergeState_iff : AppendOnly s (mergeState s d) ↔ Continues d s := by
  have hacl := mergeState_continues_iff (s := s) (d := d) .acl
    (R := fun c e : SignedField AclState => c.value.Extends e.value) fun _ => .refl _
  have hupgrade := mergeState_continues_iff (s := s) (d := d) .upgrade
    (R := fun c e : SignedField (Option RepoKey) => KeepsSuccessor c.value e.value) fun _ _ => id
  constructor
  · rintro ⟨ha, hu⟩
    exact ⟨fun c e hc he hb => hacl.mp ha c e hc he (not_pickHigherSeq.mpr hb),
      fun c e hc he hb => hupgrade.mp hu c e hc he (not_pickHigherSeq.mpr hb)⟩
  · rintro ⟨ha, hu⟩
    exact ⟨hacl.mpr fun c e hc he hw => ha c e hc he (not_pickHigherSeq.mp hw),
      hupgrade.mpr fun c e hc he hw => hu c e hc he (not_pickHigherSeq.mp hw)⟩

/-- **The append-only fields are append-only** exactly under deltas that continue
what they replace. -/
theorem updateState_appendOnly_iff (h : updateState cr params s d = .ok s') :
    AppendOnly s s' ↔ Continues d s := by
  obtain ⟨rfl, -⟩ := updateState_eq_ok.mp h
  exact appendOnly_mergeState_iff

/-- In a run of updates that continue what they replace, the append-only fields
of every state are continued in every later one. -/
theorem appendOnly_of_run
    (h : Relation.ReflTransGen
      (fun s s' => ∃ d, updateState cr params s d = .ok s' ∧ Continues d s) s s') :
    AppendOnly s s' := by
  induction h with
  | refl => exact .refl s
  | tail _ hstep ih =>
      obtain ⟨d, hd, hcont⟩ := hstep
      exact ih.trans ((updateState_appendOnly_iff hd).mpr hcont)

/-! An owner who starts the grant log over and takes the successor back. -/

namespace Sample

def writer : PublicKey := (zeros 32).set 0 1 hash_pos

def successor : RepoKey := (zeros 32).set 0 2 hash_pos

/-- A writer who was granted access in the first epoch and lost it in the second. -/
def revokedLog : AclState :=
  ⟨2, (∅ : BTreeMap PublicKey WriterGrant).insert writer ⟨1, some 2⟩⟩

def emptyLog : AclState := ⟨0, ∅⟩

def withAcl (acl : SignedField AclState) (upgrade : SignedField (Option RepoKey)) : RepoState :=
  { RepoState.default with acl := some acl, upgrade := some upgrade }

def logged : RepoState := withAcl ⟨revokedLog, 1, sig 1⟩ ⟨some successor, 1, sig 2⟩

def restarted : RepoState := withAcl ⟨emptyLog, 2, sig 3⟩ ⟨none, 2, sig 4⟩

def aclCrypto : Crypto :=
  crypto [(.acl revokedLog 1, sig 1), (.upgrade (some successor) 1, sig 2), (.acl emptyLog 2, sig 3),
    (.upgrade none 2, sig 4)]

theorem withAcl_accepted {table : List (Statement × Signature)} {a : SignedField AclState}
    {u : SignedField (Option RepoKey)} (hnodup : (table.map (·.2)).Nodup)
    (ha : (.acl a.value a.updateSeq, a.signature) ∈ table)
    (hu : (.upgrade u.value u.updateSeq, u.signature) ∈ table) :
    Accepted (crypto table) Sample.params (withAcl a u) := by
  refine accepted_of_table hnodup rfl (fun st σ hs => ?_) (fun n e h => ?_) fun id r h => ?_
  · cases hs with
    | acl h =>
        cases h
        exact ⟨ha, trivial⟩
    | upgrade h =>
        cases h
        exact ⟨hu, trivial⟩
    | name h | description h | defaultBranch h | forcePushAllowed h => cases h
    | ref h | bundle h | extension h => cases Std.ExtTreeMap.getElem?_empty.symm.trans h
  · cases Std.ExtTreeMap.getElem?_empty.symm.trans h
  · cases Std.ExtTreeMap.getElem?_empty.symm.trans h

theorem aclSigs_nodup : ([1, 2, 3, 4].map sig).Nodup := nodup_sigs (by decide)

theorem logged_accepted : Accepted aclCrypto Sample.params logged :=
  withAcl_accepted aclSigs_nodup List.mem_cons_self (List.mem_cons_of_mem _ List.mem_cons_self)

theorem update_restarted :
    updateState aclCrypto Sample.params logged restarted = .ok restarted := by
  have hmem : ∀ x ∈ [(Statement.acl emptyLog 2, sig 3), (Statement.upgrade none 2, sig 4)],
      x ∈ [(Statement.acl revokedLog 1, sig 1), (.upgrade (some successor) 1, sig 2),
        (.acl emptyLog 2, sig 3), (.upgrade none 2, sig 4)] := fun x hx =>
    List.mem_cons_of_mem _ (List.mem_cons_of_mem _ hx)
  refine updateState_eq_ok.mpr ⟨rfl, withAcl_accepted aclSigs_nodup
    (hmem _ List.mem_cons_self) (hmem _ (List.mem_cons_of_mem _ List.mem_cons_self))⟩

end Sample

theorem updateState_appendOnly_iff_restarted :
    AppendOnly Sample.logged Sample.restarted ↔ Continues Sample.restarted Sample.logged :=
  updateState_appendOnly_iff Sample.update_restarted

/-- The revoked writer and the epoch are gone, and the successor is none again. -/
theorem updateState_restarts :
    validateState Sample.aclCrypto Sample.params Sample.logged = .ok () ∧
    updateState Sample.aclCrypto Sample.params Sample.logged Sample.restarted =
      .ok Sample.restarted ∧
    ¬ AppendOnly Sample.logged Sample.restarted ∧
    ¬ Sample.revokedLog.Extends Sample.emptyLog ∧
    ¬ KeepsSuccessor (some Sample.successor) none := by
  have hsuccessor : ¬ KeepsSuccessor (some Sample.successor) none := fun h => nomatch h _ rfl
  refine ⟨validateState_eq_ok.mpr Sample.logged_accepted, Sample.update_restarted, fun h => ?_,
    fun h => absurd h.epoch (by decide), hsuccessor⟩
  obtain ⟨e, he, hkeeps⟩ := h.upgrade _ rfl
  cases he
  exact hsuccessor hkeeps

end FreenetGit
