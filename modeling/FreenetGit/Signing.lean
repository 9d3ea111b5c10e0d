/-
# `FreenetGit.Signing` — entries signed by the owner, and bundle tips

The `sign_*` helpers build an entry around the signature of its payload; they
answer `none` where building the payload panics.  A push also signs, for each
bundle it publishes, an extension that names the commit the bundle introduced:
its key is `bundle-tip:` and the id of the bundle in hexadecimal.
-/
import FreenetGit.Lib.Hex
import FreenetGit.Merge

namespace FreenetGit

open Lib

/-- A signing key (`ed25519_dalek::SigningKey`): its public half, and its signatures. -/
structure SigningKey where
  verifyingKey : PublicKey
  sign : Bytes → Signature

variable (cr : Crypto) (params : RepoParams) (key : SigningKey)

/-- The signature of a payload under the domain key of the signer. -/
def signWith (payload : RepoKey → Option Bytes) : Option Signature :=
  (payload (signatureDomainKey cr params key.verifyingKey)).map key.sign

def signStringField (fieldName value : String) (updateSeq : UInt64) :
    Option (SignedField String) :=
  (signWith cr params key fun k => signedPayloadStringField k fieldName value updateSeq).map
    fun sig => ⟨value, updateSeq, sig⟩

def signRefListField (fieldName : String) (value : List RefName) (updateSeq : UInt64) :
    Option (SignedField (List RefName)) :=
  (signWith cr params key fun k => signedPayloadRefListField k fieldName value updateSeq).map
    fun sig => ⟨value, updateSeq, sig⟩

def signAclField (fieldName : String) (value : AclState) (updateSeq : UInt64) :
    Option (SignedField AclState) :=
  (signWith cr params key fun k => signedPayloadAclField k fieldName value updateSeq).map
    fun sig => ⟨value, updateSeq, sig⟩

def signOptionalRepoKeyField (fieldName : String) (value : Option RepoKey) (updateSeq : UInt64) :
    Option (SignedField (Option RepoKey)) :=
  (signWith cr params key fun k =>
    signedPayloadOptionalRepoKeyField k fieldName value updateSeq).map
    fun sig => ⟨value, updateSeq, sig⟩

def signRefEntry (refName : String) (target : CommitHash) (updateSeq authEpoch : UInt64) :
    Option RefEntry :=
  (signWith cr params key fun k =>
    signedPayloadRefEntry k refName target updateSeq authEpoch).map
    fun sig => ⟨target, updateSeq, key.verifyingKey, authEpoch, sig⟩

def signBundleRecord (bundle : ObjectBundle) (authEpoch : UInt64) : Option ObjectBundleRecord :=
  (signWith cr params key fun k => signedPayloadBundleRecord cr k bundle authEpoch).map
    fun sig => ⟨bundle, key.verifyingKey, authEpoch, sig⟩

def signExtension (extKey : String) (value : Bytes) (updateSeq : UInt64) :
    Option ExtensionEntry :=
  (signWith cr params key fun k => signedPayloadExtension k extKey value updateSeq).map
    fun sig => ⟨value, updateSeq, sig⟩

/-! ## Bundle tips -/

/-- `BUNDLE_TIP_EXTENSION_PREFIX`. -/
def bundleTipExtensionPrefix : String := "bundle-tip:"

def bundleTipExtensionKey (bundleId : ObjectBundleId) : String :=
  bundleTipExtensionPrefix ++ hexEncode bundleId.toList

def signBundleTipExtension (bundleId : ObjectBundleId) (tip : CommitHash) (updateSeq : UInt64) :
    Option (String × ExtensionEntry) :=
  let extKey := bundleTipExtensionKey bundleId
  (signExtension cr params key extKey tip.toList updateSeq).map (extKey, ·)

/-- The source asks for 64 bytes of text; a character that is not ASCII is
rejected as a digit, so that 64 characters are the same. -/
def parseBundleTipExtensionKey (extKey : String) : Option ObjectBundleId :=
  if bundleTipExtensionPrefix.toList.isPrefixOf extKey.toList then
    let hex := extKey.toList.drop bundleTipExtensionPrefix.toList.length
    if hex.length ≠ 64 then none
    else (hexPairs radixPair hex).bind (toArray? 32)
  else none

/-- **Bundle-tip keys parse back** to the bundle they name. -/
theorem parseBundleTipExtensionKey_key (id : ObjectBundleId) :
    parseBundleTipExtensionKey (bundleTipExtensionKey id) = some id := by
  have hl : (hexEncode id.toList).toList.length = 64 := by
    rw [length_toList_hexEncode, Vector.length_toList]
  have hh : (hexEncode id.toList).toList = id.toList.flatMap hexByte := by
    rw [hexEncode, String.toList_ofList]
  simp only [parseBundleTipExtensionKey, bundleTipExtensionKey, String.toList_append,
    List.isPrefixOf_iff_prefix, List.prefix_append, if_true, List.drop_left, hl, ne_eq,
    not_true_eq_false, if_false]
  rw [hh, hexPairs_flatMap radixPair_digits, Option.bind_some, toArray?_toList]

theorem bundleTipExtensionKey_inj {id id' : ObjectBundleId}
    (h : bundleTipExtensionKey id = bundleTipExtensionKey id') : id = id' :=
  Option.some.inj (by rw [← parseBundleTipExtensionKey_key, h, parseBundleTipExtensionKey_key])

/-- A bundle-tip key is within the limit of extension keys. -/
theorem length_bundleTipExtensionKey (id : ObjectBundleId) :
    (utf8 (bundleTipExtensionKey id)).length ≤ limits.maxExtensionKeyBytes := by
  have hp : (utf8 bundleTipExtensionPrefix).length = 11 := by decide
  have hh := length_utf8_hexEncode id.toList
  rw [Vector.length_toList] at hh
  rw [bundleTipExtensionKey, length_utf8_append, hp, hh]
  decide

/-! ## The first state -/

/-- `initial_repo_state`. -/
def initialRepoState (name description defaultBranch : String) : Option RepoState := do
  let name ← signStringField cr params key "name" name 1
  let description ← signStringField cr params key "description" description 1
  let defaultBranch ← signStringField cr params key "default_branch" defaultBranch 1
  let forcePushAllowed ← signRefListField cr params key "force_push_allowed" [] 1
  let acl ← signAclField cr params key "acl" ⟨0, ∅⟩ 1
  let upgrade ← signOptionalRepoKeyField cr params key "upgrade" none 1
  some { RepoState.default with
    owner := key.verifyingKey
    name := some name
    description := some description
    defaultBranch := some defaultBranch
    forcePushAllowed := some forcePushAllowed
    acl := some acl
    upgrade := some upgrade }

/-- The first state has no refs, no bundles and no extensions. -/
theorem initialRepoState_empty {cr : Crypto} {params : RepoParams} {key : SigningKey}
    {name description defaultBranch : String} {s : RepoState}
    (h : initialRepoState cr params key name description defaultBranch = some s) :
    s.refs = ∅ ∧ s.objectIndex = ∅ ∧ s.extensions = ∅ := by
  simp only [initialRepoState, Option.bind_eq_bind, Option.bind_eq_some_iff,
    Option.some.injEq] at h
  obtain ⟨_, -, _, -, _, -, _, -, _, -, _, -, rfl⟩ := h
  exact ⟨rfl, rfl, rfl⟩

end FreenetGit
