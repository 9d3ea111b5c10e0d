/-
# `FreenetGit.Merge` — merging two states

`merge_state` merges component by component.  Everything with a sequence number
follows one rule, `pick_higher_seq`: the higher number stays, and between equal
numbers the lower signature.  A `Slot` names one such place (a singleton field,
a ref, an extension), and `mergeState_at` is the rule at every slot.  Bundles
follow another rule: the record that is there first stays
(`mergeState_objectIndex`).
-/
import FreenetGit.Lib.Lww
import FreenetGit.Validate

namespace FreenetGit

open Lib

/-! ## The rule for one entry -/

/-- Whether `a` wins under (`update_seq` descending, `signature` ascending). -/
def pickHigherSeq (aSeq : UInt64) (aSig : Signature) (bSeq : UInt64) (bSig : Signature) : Bool :=
  match compare aSeq bSeq with
  | .gt => true
  | .lt => false
  | .eq => (compare aSig bSig).isLE

def pickSignedField {T : Type} :
    Option (SignedField T) → Option (SignedField T) → Option (SignedField T)
  | none, x => x
  | some x, none => some x
  | some x, some y =>
      some (if pickHigherSeq x.updateSeq x.signature y.updateSeq y.signature then x else y)

def pickRefEntry (a b : RefEntry) : RefEntry :=
  if pickHigherSeq a.updateSeq a.signature b.updateSeq b.signature then a else b

def pickExtensionEntry (a b : ExtensionEntry) : ExtensionEntry :=
  if pickHigherSeq a.updateSeq a.signature b.updateSeq b.signature then a else b

/-! ## The merge -/

def mergeState (current incoming : RepoState) : RepoState where
  owner := current.owner
  name := pickSignedField current.name incoming.name
  description := pickSignedField current.description incoming.description
  defaultBranch := pickSignedField current.defaultBranch incoming.defaultBranch
  forcePushAllowed := pickSignedField current.forcePushAllowed incoming.forcePushAllowed
  acl := pickSignedField current.acl incoming.acl
  upgrade := pickSignedField current.upgrade incoming.upgrade
  refs := incoming.refs.foldl (fun out k v =>
    let pick := match out[k]? with
      | none => v
      | some existing => pickRefEntry existing v
    (out.erase k).insert k pick) current.refs
  objectIndex := incoming.objectIndex.foldl (fun out k v => out.insertIfNew k v)
    current.objectIndex
  extensions := incoming.extensions.foldl (fun out k v =>
    let pick := match out[k]? with
      | none => v
      | some existing => pickExtensionEntry existing v
    (out.erase k).insert k pick) current.extensions

/-- `update_state`: merge, then validate. -/
def updateState (cr : Crypto) (params : RepoParams) (current delta : RepoState) :
    Outcome ValidateError RepoState := do
  let merged := mergeState current delta
  validateState cr params merged
  .ok merged

theorem updateState_eq_ok {cr : Crypto} {params : RepoParams} {s d s' : RepoState} :
    updateState cr params s d = .ok s' ↔ s' = mergeState s d ∧ Accepted cr params s' := by
  rw [updateState, bind_eq_ok]
  constructor
  · rintro ⟨_, hv, h⟩
    cases h
    exact ⟨rfl, validateState_eq_ok.mp hv⟩
  · rintro ⟨rfl, h⟩
    exact ⟨(), validateState_eq_ok.mpr h, rfl⟩

/-! ## Slots -/

/-- A place that holds at most one entry with a sequence number. -/
inductive Slot where
  | name
  | description
  | defaultBranch
  | forcePushAllowed
  | acl
  | upgrade
  | ref (refName : RefName)
  | extension (extKey : String)
deriving DecidableEq

namespace Slot

/-- The entries of a slot. -/
abbrev Entry : Slot → Type
  | name => SignedField String
  | description => SignedField String
  | defaultBranch => SignedField RefName
  | forcePushAllowed => SignedField (List RefName)
  | acl => SignedField AclState
  | upgrade => SignedField (Option RepoKey)
  | ref _ => RefEntry
  | extension _ => ExtensionEntry

def updateSeq : (σ : Slot) → σ.Entry → UInt64
  | name, e | description, e | defaultBranch, e | forcePushAllowed, e | acl, e | upgrade, e =>
      SignedField.updateSeq e
  | ref _, e => RefEntry.updateSeq e
  | extension _, e => ExtensionEntry.updateSeq e

def signature : (σ : Slot) → σ.Entry → Signature
  | name, e | description, e | defaultBranch, e | forcePushAllowed, e | acl, e | upgrade, e =>
      SignedField.signature e
  | ref _, e => RefEntry.signature e
  | extension _, e => ExtensionEntry.signature e

/-- What an entry says in its slot. -/
def statement : (σ : Slot) → σ.Entry → Statement
  | name, e => .name (SignedField.value e) (SignedField.updateSeq e)
  | description, e => .description (SignedField.value e) (SignedField.updateSeq e)
  | defaultBranch, e => .defaultBranch (SignedField.value e) (SignedField.updateSeq e)
  | forcePushAllowed, e => .forcePushAllowed (SignedField.value e) (SignedField.updateSeq e)
  | acl, e => .acl (SignedField.value e) (SignedField.updateSeq e)
  | upgrade, e => .upgrade (SignedField.value e) (SignedField.updateSeq e)
  | ref n, e => .ref n (RefEntry.target e) (RefEntry.updateSeq e) (RefEntry.authEpoch e)
  | extension k, e => .extension k (ExtensionEntry.value e) (ExtensionEntry.updateSeq e)

end Slot

/-- The entry a state has in a slot. -/
def RepoState.at (s : RepoState) : (σ : Slot) → Option σ.Entry
  | .name => s.name
  | .description => s.description
  | .defaultBranch => s.defaultBranch
  | .forcePushAllowed => s.forcePushAllowed
  | .acl => s.acl
  | .upgrade => s.upgrade
  | .ref n => s.refs[n]?
  | .extension k => s.extensions[k]?

theorem RepoState.default_at : ∀ σ : Slot, RepoState.default.at σ = none
  | .name | .description | .defaultBranch | .forcePushAllowed | .acl | .upgrade => rfl
  | .ref _ | .extension _ => Std.ExtTreeMap.getElem?_empty

/-- The components with sequence numbers agree: the six singleton fields, the
refs and the extensions. -/
structure SameSlots (a b : RepoState) : Prop where
  name : a.name = b.name
  description : a.description = b.description
  defaultBranch : a.defaultBranch = b.defaultBranch
  forcePushAllowed : a.forcePushAllowed = b.forcePushAllowed
  acl : a.acl = b.acl
  upgrade : a.upgrade = b.upgrade
  refs : a.refs = b.refs
  extensions : a.extensions = b.extensions

theorem SameSlots.of_at {a b : RepoState} (h : ∀ σ : Slot, a.at σ = b.at σ) : SameSlots a b where
  name := h .name
  description := h .description
  defaultBranch := h .defaultBranch
  forcePushAllowed := h .forcePushAllowed
  acl := h .acl
  upgrade := h .upgrade
  refs := Std.ExtTreeMap.ext_getElem? fun n => h (.ref n)
  extensions := Std.ExtTreeMap.ext_getElem? fun k => h (.extension k)

theorem SameSlots.at {a b : RepoState} (h : SameSlots a b) (σ : Slot) : a.at σ = b.at σ := by
  obtain ⟨h₁, h₂, h₃, h₄, h₅, h₆, h₇, h₈⟩ := h
  cases σ <;> simp only [RepoState.at, *]

theorem RepoState.ext_at {a b : RepoState} (ho : a.owner = b.owner)
    (h : ∀ σ : Slot, a.at σ = b.at σ) (hi : a.objectIndex = b.objectIndex) : a = b := by
  obtain ⟨h₁, h₂, h₃, h₄, h₅, h₆, h₇, h₈⟩ := SameSlots.of_at h
  cases a
  cases b
  simp_all

theorem says_at {s : RepoState} : ∀ {σ : Slot} {e : σ.Entry}, s.at σ = some e →
    Says s (σ.statement e) (σ.signature e)
  | .name, _, h => .name h
  | .description, _, h => .description h
  | .defaultBranch, _, h => .defaultBranch h
  | .forcePushAllowed, _, h => .forcePushAllowed h
  | .acl, _, h => .acl h
  | .upgrade, _, h => .upgrade h
  | .ref _, _, h => .ref h
  | .extension _, _, h => .extension h

/-! ## The rule as a choice between entries -/

theorem pickHigherSeq_iff {aSeq bSeq : UInt64} {aSig bSig : Signature} :
    pickHigherSeq aSeq aSig bSeq bSig = true ↔
      bSeq < aSeq ∨ aSeq = bSeq ∧ (compare aSig bSig).isLE = true := by
  unfold pickHigherSeq
  split
  · next h =>
      exact ⟨fun _ => .inl (Std.compare_eq_gt.mp h), fun _ => rfl⟩
  · next h =>
      have h := Std.compare_eq_lt.mp h
      refine ⟨nofun, ?_⟩
      rintro (h' | ⟨rfl, _⟩)
      · exact absurd (UInt64.lt_trans h h') (UInt64.lt_irrefl _)
      · exact absurd h (UInt64.lt_irrefl _)
  · next h =>
      have h := Std.compare_eq_iff_eq.mp h
      subst h
      exact ⟨fun h => .inr ⟨rfl, h⟩, fun h => h.elim (absurd · (UInt64.lt_irrefl _)) (·.2)⟩

theorem pickHigherSeq_total (aSeq bSeq : UInt64) (aSig bSig : Signature) :
    pickHigherSeq aSeq aSig bSeq bSig = true ∨ pickHigherSeq bSeq bSig aSeq aSig = true := by
  simp only [pickHigherSeq_iff]
  rcases Nat.lt_trichotomy aSeq.toNat bSeq.toNat with h | h | h
  · exact .inr (.inl (UInt64.lt_iff_toNat_lt.mpr h))
  · have h := UInt64.toNat_inj.mp h
    by_cases hle : (compare aSig bSig).isLE = true
    · exact .inl (.inr ⟨h, hle⟩)
    · exact .inr (.inr ⟨h.symm, Ordering.isLE_of_eq_lt (Std.OrientedCmp.lt_of_not_isLE hle)⟩)
  · exact .inl (.inl (UInt64.lt_iff_toNat_lt.mpr h))

theorem pickHigherSeq_trans {aSeq bSeq cSeq : UInt64} {aSig bSig cSig : Signature}
    (hab : pickHigherSeq aSeq aSig bSeq bSig = true)
    (hbc : pickHigherSeq bSeq bSig cSeq cSig = true) :
    pickHigherSeq aSeq aSig cSeq cSig = true := by
  rw [pickHigherSeq_iff] at *
  rcases hab with hab | ⟨rfl, hab⟩
  · rcases hbc with hbc | ⟨rfl, _⟩
    · exact .inl (UInt64.lt_trans hbc hab)
    · exact .inl hab
  · rcases hbc with hbc | ⟨rfl, hbc⟩
    · exact .inl hbc
    · exact .inr ⟨rfl, Std.TransCmp.isLE_trans hab hbc⟩

/-- Two entries draw only under one signature. -/
theorem pickHigherSeq_draw {aSeq bSeq : UInt64} {aSig bSig : Signature}
    (hab : pickHigherSeq aSeq aSig bSeq bSig = true)
    (hba : pickHigherSeq bSeq bSig aSeq aSig = true) : aSeq = bSeq ∧ aSig = bSig := by
  rw [pickHigherSeq_iff] at *
  rcases hab with hab | ⟨rfl, hab⟩
  · rcases hba with hba | ⟨rfl, _⟩
    · exact absurd (UInt64.lt_trans hab hba) (UInt64.lt_irrefl _)
    · exact absurd hab (UInt64.lt_irrefl _)
  · rcases hba with hba | ⟨_, hba⟩
    · exact absurd hba (UInt64.lt_irrefl _)
    · exact ⟨rfl, Std.compare_eq_iff_eq.mp (Std.OrientedCmp.isLE_antisymm hab hba)⟩

/-- The rule of a slot. -/
def Slot.picker (σ : Slot) : Picker σ.Entry where
  wins a b := pickHigherSeq (σ.updateSeq a) (σ.signature a) (σ.updateSeq b) (σ.signature b)
  total _ _ := pickHigherSeq_total _ _ _ _
  trans _ _ _ := pickHigherSeq_trans

theorem Slot.updateSeq_le_of_wins {σ : Slot} {a b : σ.Entry} (h : σ.picker.wins a b = true) :
    σ.updateSeq b ≤ σ.updateSeq a := by
  rcases pickHigherSeq_iff.mp h with h | ⟨h, _⟩
  · exact UInt64.le_of_lt h
  · exact h ▸ UInt64.le_refl _

theorem pickSignedField_eq {T : Type} (P : Picker (SignedField T))
    (hP : ∀ a b, P.wins a b = pickHigherSeq a.updateSeq a.signature b.updateSeq b.signature) :
    ∀ x y, pickSignedField x y = P.pickOpt x y
  | none, _ => rfl
  | some _, none => rfl
  | some a, some b => by simp only [pickSignedField, Picker.pickOpt, Picker.pick, hP]

/-- **`merge_state` at a slot** is the rule of the slot. -/
theorem mergeState_at (a b : RepoState) : ∀ σ : Slot,
    (mergeState a b).at σ = σ.picker.pickOpt (a.at σ) (b.at σ)
  | .name | .description | .defaultBranch | .forcePushAllowed | .acl | .upgrade =>
      pickSignedField_eq _ (fun _ _ => rfl) _ _
  | .ref n => by
      refine (getElem?_foldl (actsAt_replace fun e v =>
        match e with
        | none => v
        | some existing => pickRefEntry existing v) b.refs a.refs n).trans ?_
      simp only [RepoState.at]
      cases b.refs[n]? <;> cases a.refs[n]? <;> rfl
  | .extension k => by
      refine (getElem?_foldl (actsAt_replace fun e v =>
        match e with
        | none => v
        | some existing => pickExtensionEntry existing v) b.extensions a.extensions k).trans ?_
      simp only [RepoState.at]
      cases b.extensions[k]? <;> cases a.extensions[k]? <;> rfl

/-- An entry with a higher number than the one that is there takes its place. -/
theorem mergeState_higher {s d : RepoState} {σ : Slot} {e : σ.Entry} (hd : d.at σ = some e)
    (hlt : ∀ cur, s.at σ = some cur → σ.updateSeq cur < σ.updateSeq e) :
    (mergeState s d).at σ = some e := by
  rw [mergeState_at, hd]
  cases hs : s.at σ with
  | none => rfl
  | some cur =>
      have hloses : ¬ σ.picker.wins cur e = true := fun hw =>
        absurd (hlt cur hs) (UInt64.not_lt.mpr (σ.updateSeq_le_of_wins hw))
      exact congrArg some (if_neg hloses)

/-- **`merge_state` at a bundle id** keeps the record that is there. -/
theorem mergeState_objectIndex (a b : RepoState) (id : ObjectBundleId) :
    (mergeState a b).objectIndex[id]? = a.objectIndex[id]?.or b.objectIndex[id]? := by
  show (b.objectIndex.foldl (fun out k v => out.insertIfNew k v) a.objectIndex)[id]? = _
  rw [getElem?_foldl actsAt_insertIfNew]
  cases b.objectIndex[id]? <;> cases a.objectIndex[id]? <;> rfl

@[simp] theorem mergeState_owner (a b : RepoState) : (mergeState a b).owner = a.owner := rfl

/-! ## Acceptance is about single entries -/

/-- A state all of whose entries stand, at the same places, in accepted states
of the same owner. -/
structure DrawnFrom (cr : Crypto) (params : RepoParams) (owner : PublicKey) (s : RepoState) :
    Prop where
  slot : ∀ (σ : Slot) (e : σ.Entry), s.at σ = some e →
    ∃ t, Accepted cr params t ∧ t.owner = owner ∧ t.at σ = some e
  record : ∀ (id : ObjectBundleId) (r : ObjectBundleRecord), s.objectIndex[id]? = some r →
    ∃ t, Accepted cr params t ∧ t.owner = owner ∧ t.objectIndex[id]? = some r

namespace DrawnFrom

variable {cr : Crypto} {params : RepoParams} {owner : PublicKey} {a b s : RepoState}

theorem of_accepted (h : Accepted cr params s) (ho : s.owner = owner) :
    DrawnFrom cr params owner s where
  slot _ _ he := ⟨s, h, ho, he⟩
  record _ _ hr := ⟨s, h, ho, hr⟩

theorem merge (ha : DrawnFrom cr params owner a) (hb : DrawnFrom cr params owner b) :
    DrawnFrom cr params owner (mergeState a b) where
  slot σ e he := by
    rw [mergeState_at] at he
    exact (σ.picker.pickOpt_eq_some he).elim (ha.slot σ e) (hb.slot σ e)
  record id r hr := by
    rw [mergeState_objectIndex, Option.or_eq_some_iff] at hr
    exact hr.elim (ha.record id r) fun h => hb.record id r h.2

/-- The entries are all that acceptance depends on, besides the owner. -/
theorem accepted (h : DrawnFrom cr params owner s) (ho : s.owner = owner)
    (hp : PrefixOk cr params owner) : Accepted cr params s where
  prefixOk := ho ▸ hp
  nameLen f hf := by
    obtain ⟨t, ht, _, htf⟩ := h.slot .name f hf
    exact ht.nameLen f htf
  descriptionLen f hf := by
    obtain ⟨t, ht, _, htf⟩ := h.slot .description f hf
    exact ht.descriptionLen f htf
  defaultBranchLen f hf := by
    obtain ⟨t, ht, _, htf⟩ := h.slot .defaultBranch f hf
    exact ht.defaultBranchLen f htf
  refOk n e he := by
    obtain ⟨t, ht, hto, hte⟩ := h.slot (.ref n) e he
    exact ho ▸ hto ▸ ht.refOk n e hte
  bundleOk id r hr := by
    obtain ⟨t, ht, hto, htr⟩ := h.record id r hr
    exact ho ▸ hto ▸ ht.bundleOk id r htr
  extensionOk k e he := by
    obtain ⟨t, ht, _, hte⟩ := h.slot (.extension k) e he
    exact ht.extensionOk k e hte
  signed st sig hs := by
    have of_slot : ∀ (σ : Slot) (e : σ.Entry), s.at σ = some e →
        Signed cr params s.owner (σ.statement e) (σ.signature e) := fun σ e he => by
      obtain ⟨t, ht, hto, hte⟩ := h.slot σ e he
      exact ho ▸ hto ▸ ht.signed _ _ (says_at hte)
    cases hs with
    | name hf => exact of_slot .name _ hf
    | description hf => exact of_slot .description _ hf
    | defaultBranch hf => exact of_slot .defaultBranch _ hf
    | forcePushAllowed hf => exact of_slot .forcePushAllowed _ hf
    | acl hf => exact of_slot .acl _ hf
    | upgrade hf => exact of_slot .upgrade _ hf
    | ref he => exact of_slot (.ref _) _ he
    | extension he => exact of_slot (.extension _) _ he
    | bundle hr =>
        obtain ⟨t, ht, hto, htr⟩ := h.record _ _ hr
        exact ho ▸ hto ▸ ht.signed _ _ (.bundle htr)

end DrawnFrom

end FreenetGit
