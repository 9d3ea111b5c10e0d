/-
# `FreenetGit.Validate` — the check of a candidate state

`validate_state` stops at the first failing check.  What it accepts is stated
without an order of checks: the owner fits the parameters, the sizes are within
the limits, each bundle stands under its id, each entry names the owner as its
signer, and everything the state says (`Says`) is signed by the owner for this
repository (`validateState_ok_iff`).
-/
import FreenetGit.Lib.Checks
import FreenetGit.Payload

namespace FreenetGit

open Lib

variable (cr : Crypto)

/-! ## The checks -/

def checkSize (field : String) (len max : Nat) : Outcome ValidateError Unit :=
  if len > max then .error (.err (.fieldTooLong field len max)) else .ok ()

/-- A payload that cannot be built panics before the signature is looked at. -/
def verifySignature (payload : Option Bytes) (signer : PublicKey) (signature : Signature)
    (label : String) : Outcome ValidateError Unit :=
  match payload with
  | none => .error .panicked
  | some p =>
      if cr.verify signer p signature then .ok () else .error (.err (.invalidSignature label))

def verifySignedFieldString (repoKey : RepoKey) (fieldName : String) (owner : PublicKey)
    (field : SignedField String) (label : String) : Outcome ValidateError Unit :=
  verifySignature cr (signedPayloadStringField repoKey fieldName field.value field.updateSeq)
    owner field.signature label

def verifySignedFieldRefList (repoKey : RepoKey) (fieldName : String) (owner : PublicKey)
    (field : SignedField (List RefName)) (label : String) : Outcome ValidateError Unit :=
  verifySignature cr (signedPayloadRefListField repoKey fieldName field.value field.updateSeq)
    owner field.signature label

def verifySignedFieldAcl (repoKey : RepoKey) (fieldName : String) (owner : PublicKey)
    (field : SignedField AclState) (label : String) : Outcome ValidateError Unit :=
  verifySignature cr (signedPayloadAclField repoKey fieldName field.value field.updateSeq)
    owner field.signature label

def verifySignedFieldOptionalRepoKey (repoKey : RepoKey) (fieldName : String) (owner : PublicKey)
    (field : SignedField (Option RepoKey)) (label : String) : Outcome ValidateError Unit :=
  verifySignature cr
    (signedPayloadOptionalRepoKeyField repoKey fieldName field.value field.updateSeq)
    owner field.signature label

def verifyRefEntry (repoKey : RepoKey) (refName : String) (entry : RefEntry) :
    Outcome ValidateError Unit :=
  verifySignature cr
    (signedPayloadRefEntry repoKey refName entry.target entry.updateSeq entry.authEpoch)
    entry.updater entry.signature "ref entry"

def verifyBundleRecord (repoKey : RepoKey) (record : ObjectBundleRecord) :
    Outcome ValidateError Unit :=
  verifySignature cr (signedPayloadBundleRecord cr repoKey record.bundle record.authEpoch)
    record.addedBy record.signature "bundle record"

def verifyExtensionEntry (repoKey : RepoKey) (extKey : String) (owner : PublicKey)
    (entry : ExtensionEntry) : Outcome ValidateError Unit :=
  verifySignature cr (signedPayloadExtension repoKey extKey entry.value entry.updateSeq)
    owner entry.signature "extension entry"

/-- Steps 1 to 3 of `validate_state`: the prefix and the owner. -/
def validatePrefix (params : RepoParams) (owner : PublicKey) : Outcome ValidateError Unit :=
  let len := (utf8 params.prefixStr).length
  if len < limits.minPrefixLen ∨ len > limits.maxPrefixLen then
    .error (.err (.invalidPrefixLength len limits.minPrefixLen limits.maxPrefixLen))
  else if ¬ cr.bs58Decodes params.prefixStr then .error (.err .invalidPrefixChars)
  else
    let actualPrefix := pubkeyPrefix cr owner len
    if actualPrefix ≠ params.prefixStr then
      .error (.err (.prefixMismatch params.prefixStr actualPrefix))
    else .ok ()

def validateRef (repoKey : RepoKey) (owner : PublicKey) (refName : RefName) (entry : RefEntry) :
    Outcome ValidateError Unit := do
  checkSize "ref name" (utf8 refName).length limits.maxRefNameBytes
  if entry.updater ≠ owner then .error (.err .nonOwnerSigner)
  else verifyRefEntry cr repoKey refName entry

def validateBundle (repoKey : RepoKey) (owner : PublicKey) (bundleId : ObjectBundleId)
    (record : ObjectBundleRecord) : Outcome ValidateError Unit :=
  if record.bundle.id cr ≠ bundleId then .error (.err .bundleIdMismatch)
  else if record.addedBy ≠ owner then .error (.err .nonOwnerSigner)
  else verifyBundleRecord cr repoKey record

def validateExtension (repoKey : RepoKey) (owner : PublicKey) (extKey : String)
    (entry : ExtensionEntry) : Outcome ValidateError Unit := do
  checkSize "extension key" (utf8 extKey).length limits.maxExtensionKeyBytes
  checkSize "extension value" entry.value.length limits.maxExtensionValueBytes
  verifyExtensionEntry cr repoKey extKey owner entry

/-- The full contract check. -/
def validateState (params : RepoParams) (state : RepoState) : Outcome ValidateError Unit := do
  validatePrefix cr params state.owner
  let repoKey := paramsRepoKey cr params state.owner
  ifSome state.name fun field => do
    checkSize "name" (utf8 field.value).length limits.maxNameBytes
    verifySignedFieldString cr repoKey "name" state.owner field "name"
  ifSome state.description fun field => do
    checkSize "description" (utf8 field.value).length limits.maxDescriptionBytes
    verifySignedFieldString cr repoKey "description" state.owner field "description"
  ifSome state.defaultBranch fun field => do
    checkSize "default_branch" (utf8 field.value).length limits.maxRefNameBytes
    verifySignedFieldString cr repoKey "default_branch" state.owner field "default_branch"
  ifSome state.forcePushAllowed fun field =>
    verifySignedFieldRefList cr repoKey "force_push_allowed" state.owner field "force_push_allowed"
  ifSome state.acl fun field =>
    verifySignedFieldAcl cr repoKey "acl" state.owner field "acl"
  ifSome state.upgrade fun field =>
    verifySignedFieldOptionalRepoKey cr repoKey "upgrade" state.owner field "upgrade"
  forEach state.refs (validateRef cr repoKey state.owner)
  forEach state.objectIndex (validateBundle cr repoKey state.owner)
  forEach state.extensions (validateExtension cr repoKey state.owner)

/-! ## What a state says -/

/-- An entry of the state says the statement, under the signature it carries. -/
inductive Says (s : RepoState) : Statement → Signature → Prop
  | name {f} (h : s.name = some f) : Says s (.name f.value f.updateSeq) f.signature
  | description {f} (h : s.description = some f) :
      Says s (.description f.value f.updateSeq) f.signature
  | defaultBranch {f} (h : s.defaultBranch = some f) :
      Says s (.defaultBranch f.value f.updateSeq) f.signature
  | forcePushAllowed {f} (h : s.forcePushAllowed = some f) :
      Says s (.forcePushAllowed f.value f.updateSeq) f.signature
  | acl {f} (h : s.acl = some f) : Says s (.acl f.value f.updateSeq) f.signature
  | upgrade {f} (h : s.upgrade = some f) : Says s (.upgrade f.value f.updateSeq) f.signature
  | ref {n : RefName} {e : RefEntry} (h : s.refs[n]? = some e) :
      Says s (.ref n e.target e.updateSeq e.authEpoch) e.signature
  | bundle {id : ObjectBundleId} {r : ObjectBundleRecord} (h : s.objectIndex[id]? = some r) :
      Says s (.bundle r.bundle r.authEpoch) r.signature
  | extension {k : String} {e : ExtensionEntry} (h : s.extensions[k]? = some e) :
      Says s (.extension k e.value e.updateSeq) e.signature

/-- The owner's signature on a statement, for the repository of these parameters. -/
def Signed (params : RepoParams) (owner : PublicKey) (st : Statement) (sig : Signature) : Prop :=
  ∃ p, st.payload cr (paramsRepoKey cr params owner) = some p ∧ cr.verify owner p sig = true

/-- The owner and the parameters fit. -/
structure PrefixOk (params : RepoParams) (owner : PublicKey) : Prop where
  minLen : limits.minPrefixLen ≤ (utf8 params.prefixStr).length
  maxLen : (utf8 params.prefixStr).length ≤ limits.maxPrefixLen
  decodes : cr.bs58Decodes params.prefixStr = true
  eq : pubkeyPrefix cr owner (utf8 params.prefixStr).length = params.prefixStr

/-- A state that the contract accepts. -/
structure Accepted (params : RepoParams) (s : RepoState) : Prop where
  prefixOk : PrefixOk cr params s.owner
  nameLen : ∀ f, s.name = some f → (utf8 f.value).length ≤ limits.maxNameBytes
  descriptionLen : ∀ f, s.description = some f →
    (utf8 f.value).length ≤ limits.maxDescriptionBytes
  defaultBranchLen : ∀ f, s.defaultBranch = some f →
    (utf8 f.value).length ≤ limits.maxRefNameBytes
  refOk : ∀ n e, s.refs[n]? = some e →
    (utf8 n).length ≤ limits.maxRefNameBytes ∧ e.updater = s.owner
  bundleOk : ∀ (id : ObjectBundleId) (r : ObjectBundleRecord), s.objectIndex[id]? = some r →
    r.bundle.id cr = id ∧ r.addedBy = s.owner
  extensionOk : ∀ k e, s.extensions[k]? = some e →
    (utf8 k).length ≤ limits.maxExtensionKeyBytes ∧ e.value.length ≤ limits.maxExtensionValueBytes
  signed : ∀ st sig, Says s st sig → Signed cr params s.owner st sig

/-! ## What the checks accept -/

section

variable {cr}

theorem checkSize_eq_ok {field : String} {len max : Nat} :
    checkSize field len max = .ok () ↔ len ≤ max := by
  unfold checkSize
  split
  · next h => exact ⟨nofun, fun h' => absurd h' (Nat.not_le.mpr h)⟩
  · next h => exact ⟨fun _ => Nat.not_lt.mp h, fun _ => rfl⟩

theorem verifySignature_eq_ok {payload : Option Bytes} {signer : PublicKey} {sig : Signature}
    {label : String} :
    verifySignature cr payload signer sig label = .ok () ↔
      ∃ p, payload = some p ∧ cr.verify signer p sig = true := by
  unfold verifySignature
  split
  · exact ⟨nofun, fun ⟨_, h, _⟩ => nomatch h⟩
  · next p =>
      split
      · next h => exact ⟨fun _ => ⟨p, rfl, h⟩, fun _ => rfl⟩
      · next h => exact ⟨nofun, fun ⟨_, he, hv⟩ => absurd (by cases he; exact hv) h⟩

theorem validatePrefix_eq_ok {params : RepoParams} {owner : PublicKey} :
    validatePrefix cr params owner = .ok () ↔ PrefixOk cr params owner := by
  unfold validatePrefix
  dsimp only
  split
  · next hlen =>
      exact ⟨nofun, fun h => absurd hlen (not_or.mpr
        ⟨Nat.not_lt.mpr h.minLen, Nat.not_lt.mpr h.maxLen⟩)⟩
  · next hlen =>
      obtain ⟨hmin, hmax⟩ := not_or.mp hlen
      split
      · next hdec => exact ⟨nofun, fun h => absurd h.decodes hdec⟩
      · next hdec =>
          split
          · next heq => exact ⟨nofun, fun h => absurd h.eq heq⟩
          · next heq =>
              exact ⟨fun _ => ⟨Nat.not_lt.mp hmin, Nat.not_lt.mp hmax, not_not.mp hdec,
                not_not.mp heq⟩, fun _ => rfl⟩

variable {params : RepoParams} {owner : PublicKey}

/-- A state without entries says nothing. -/
theorem PrefixOk.accepted (h : PrefixOk cr params owner) :
    Accepted cr params { RepoState.default with owner := owner } := by
  have hnone : ∀ {K V : Type} [Ord K] [Std.TransCmp (compare : K → K → Ordering)] {k : K} {v : V},
      ¬ (∅ : BTreeMap K V)[k]? = some v := fun hv =>
    nomatch Std.ExtTreeMap.getElem?_empty.symm.trans hv
  refine ⟨h, nofun, nofun, nofun, fun _ _ he => absurd he hnone, fun _ _ hr => absurd hr hnone,
    fun _ _ he => absurd he hnone, fun _ _ hs => ?_⟩
  cases hs with
  | name hf | description hf | defaultBranch hf | forcePushAllowed hf | acl hf | upgrade hf =>
      cases hf
  | ref he | bundle he | extension he => exact absurd he hnone

theorem validateRef_eq_ok {n : RefName} {e : RefEntry} :
    validateRef cr (paramsRepoKey cr params owner) owner n e = .ok () ↔
      ((utf8 n).length ≤ limits.maxRefNameBytes ∧ e.updater = owner) ∧
        Signed cr params owner (.ref n e.target e.updateSeq e.authEpoch) e.signature := by
  unfold validateRef
  rw [andThen_eq_ok, checkSize_eq_ok, and_assoc]
  refine and_congr_right fun _ => ?_
  split_ifs with h
  · exact ⟨nofun, fun h' => absurd h'.1 h⟩
  · have h := not_not.mp h
    rw [verifyRefEntry, verifySignature_eq_ok, h]
    exact (and_iff_right rfl).symm

theorem validateBundle_eq_ok {id : ObjectBundleId} {r : ObjectBundleRecord} :
    validateBundle cr (paramsRepoKey cr params owner) owner id r = .ok () ↔
      (r.bundle.id cr = id ∧ r.addedBy = owner) ∧
        Signed cr params owner (.bundle r.bundle r.authEpoch) r.signature := by
  unfold validateBundle
  split_ifs with hid hby
  · exact ⟨nofun, fun h => absurd h.1.1 hid⟩
  · exact ⟨nofun, fun h => absurd h.1.2 hby⟩
  · have hby := not_not.mp hby
    rw [verifyBundleRecord, verifySignature_eq_ok, hby]
    exact (and_iff_right ⟨not_not.mp hid, rfl⟩).symm

theorem validateExtension_eq_ok {k : String} {e : ExtensionEntry} :
    validateExtension cr (paramsRepoKey cr params owner) owner k e = .ok () ↔
      ((utf8 k).length ≤ limits.maxExtensionKeyBytes ∧
        e.value.length ≤ limits.maxExtensionValueBytes) ∧
        Signed cr params owner (.extension k e.value e.updateSeq) e.signature := by
  unfold validateExtension
  rw [andThen_eq_ok, andThen_eq_ok, checkSize_eq_ok, checkSize_eq_ok, and_assoc]
  exact and_congr_right fun _ => and_congr_right fun _ => verifySignature_eq_ok

/-- **`validate_state` accepts exactly the accepted states.** -/
theorem validateState_eq_ok {s : RepoState} :
    validateState cr params s = .ok () ↔ Accepted cr params s := by
  simp only [validateState, andThen_eq_ok, validatePrefix_eq_ok, ifSome_eq_ok, checkSize_eq_ok,
    forEach_eq_ok, validateRef_eq_ok, validateBundle_eq_ok, validateExtension_eq_ok,
    verifySignedFieldString, verifySignedFieldRefList, verifySignedFieldAcl,
    verifySignedFieldOptionalRepoKey, verifySignature_eq_ok]
  constructor
  · rintro ⟨hp, hn, hd, hb, hf, ha, hu, hr, ho, he⟩
    refine ⟨hp, fun f h => (hn f h).1, fun f h => (hd f h).1, fun f h => (hb f h).1,
      fun n e h => (hr n e h).1, fun i r h => (ho i r h).1, fun k e h => (he k e h).1, ?_⟩
    intro st sig hs
    cases hs with
    | name h => exact (hn _ h).2
    | description h => exact (hd _ h).2
    | defaultBranch h => exact (hb _ h).2
    | forcePushAllowed h => exact hf _ h
    | acl h => exact ha _ h
    | upgrade h => exact hu _ h
    | ref h => exact (hr _ _ h).2
    | bundle h => exact (ho _ _ h).2
    | extension h => exact (he _ _ h).2
  · rintro ⟨hp, hn, hd, hb, hr, ho, he, hs⟩
    exact ⟨hp, fun f h => ⟨hn f h, hs _ _ (.name h)⟩, fun f h => ⟨hd f h, hs _ _ (.description h)⟩,
      fun f h => ⟨hb f h, hs _ _ (.defaultBranch h)⟩, fun f h => hs _ _ (.forcePushAllowed h),
      fun f h => hs _ _ (.acl h), fun f h => hs _ _ (.upgrade h),
      fun n e h => ⟨hr n e h, hs _ _ (.ref h)⟩, fun i r h => ⟨ho i r h, hs _ _ (.bundle h)⟩,
      fun k e h => ⟨he k e h, hs _ _ (.extension h)⟩⟩

end

end FreenetGit
