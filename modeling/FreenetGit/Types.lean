/-
# `FreenetGit.Types` — the data model of a repository contract

The state of a repository (`RepoState`): six signed singleton fields and three
maps (refs, stored bundles, extensions).  A `BTreeMap` is an ordered map whose
equality is equality of lookups, an array `[u8; n]` is a `Vector UInt8 n`, and
counters are machine words, as in the source.

The hash function, signature verification, base58 and the texts of decoding
errors come from other packages.  What the code uses of them is a `Crypto`, and
every definition that needs them takes it as its first argument.
-/
import FreenetGit.Lib.Bytes
import FreenetGit.Lib.TreeMap

namespace FreenetGit

open Lib

/-- `std::collections::BTreeMap`. -/
abbrev BTreeMap (K V : Type) [Ord K] := Std.ExtTreeMap K V compare

/-! ## Limits -/

namespace limits

def maxNameBytes : Nat := 256
def maxDescriptionBytes : Nat := 4096
def maxRefNameBytes : Nat := 256
def maxExtensionKeyBytes : Nat := 256
def maxExtensionValueBytes : Nat := 64 * 1024
def minPrefixLen : Nat := 4
def maxPrefixLen : Nat := 32

end limits

/-! ## Keys and hashes -/

abbrev PublicKey := Vector UInt8 32
abbrev Signature := Vector UInt8 64
abbrev PackHash := Vector UInt8 32
abbrev ManifestHash := Vector UInt8 32
abbrev CommitHash := Vector UInt8 20
abbrev ObjectBundleId := Vector UInt8 32
abbrev RepoKey := Vector UInt8 32
abbrev RefName := String

/-! The orders of the arrays that are keys of maps. -/

instance instTransOrdHash : Std.TransOrd (Vector UInt8 32) := inferInstance

instance instLawfulEqOrdHash : Std.LawfulEqOrd (Vector UInt8 32) := inferInstance

instance instTransOrdCommitHash : Std.TransOrd CommitHash := inferInstance

instance instLawfulEqOrdCommitHash : Std.LawfulEqOrd CommitHash := inferInstance

/-- The all-zero array, `Default::default()` of the key types. -/
def zeros (n : Nat) : Vector UInt8 n := Vector.replicate n 0

theorem hash_pos : 0 < 32 := by decide

theorem commitHash_pos : 0 < 20 := by decide

/-! ## The state and its entries -/

/-- The contract parameters: the base58 prefix of the owner's key. -/
structure RepoParams where
  prefixStr : String
deriving DecidableEq

/-- A singleton field with its own signature. -/
structure SignedField (T : Type) where
  value : T
  updateSeq : UInt64
  signature : Signature
deriving DecidableEq

structure WriterGrant where
  grantedAtEpoch : UInt64
  revokedAtEpoch : Option UInt64
deriving DecidableEq

structure AclState where
  epoch : UInt64
  grants : BTreeMap PublicKey WriterGrant
deriving DecidableEq

structure RefEntry where
  target : CommitHash
  updateSeq : UInt64
  updater : PublicKey
  authEpoch : UInt64
  signature : Signature
deriving DecidableEq

inductive ObjectBundle where
  | singlePack (packHash : PackHash) (sizeBytes : UInt64)
  | chunkedPack (manifestHash : ManifestHash) (totalSize : UInt64) (chunkCount : UInt32)
deriving DecidableEq

structure ObjectBundleRecord where
  bundle : ObjectBundle
  addedBy : PublicKey
  authEpoch : UInt64
  signature : Signature
deriving DecidableEq

structure ExtensionEntry where
  value : Bytes
  updateSeq : UInt64
  signature : Signature
deriving DecidableEq

/-- The full mutable state of a repo contract. -/
structure RepoState where
  owner : PublicKey
  name : Option (SignedField String)
  description : Option (SignedField String)
  defaultBranch : Option (SignedField RefName)
  forcePushAllowed : Option (SignedField (List RefName))
  acl : Option (SignedField AclState)
  upgrade : Option (SignedField (Option RepoKey))
  refs : BTreeMap RefName RefEntry
  objectIndex : BTreeMap ObjectBundleId ObjectBundleRecord
  extensions : BTreeMap String ExtensionEntry
deriving DecidableEq

/-- `RepoState::default()`. -/
def RepoState.default : RepoState where
  owner := zeros 32
  name := none
  description := none
  defaultBranch := none
  forcePushAllowed := none
  acl := none
  upgrade := none
  refs := ∅
  objectIndex := ∅
  extensions := ∅

/-! ## Errors -/

/-- The errors of `validate_state`, with the field each one names. -/
inductive ValidateError where
  | decodeParams (e : String)
  | decodeState (e : String)
  | invalidSignature (label : String)
  | nonOwnerSigner
  | fieldTooLong (field : String) (len max : Nat)
  | bundleIdMismatch
  | nonMonotonic (what : String)
  | invalidPrefixLength (len min max : Nat)
  | prefixMismatch (expected actual : String)
  | invalidPrefixChars
deriving DecidableEq, Repr

/-- The text of an error. -/
def ValidateError.display : ValidateError → String
  | decodeParams e => "decode parameters: " ++ e
  | decodeState e => "decode state: " ++ e
  | invalidSignature l => "signature verification failed for " ++ l
  | nonOwnerSigner => "entry signed by non-owner key (Phase 1.0 is single-writer)"
  | fieldTooLong f len max =>
      "field " ++ f ++ " exceeds limit (" ++ toString len ++ " > " ++ toString max ++ ")"
  | bundleIdMismatch => "object_index entry has wrong bundle id"
  | nonMonotonic what => "monotonic invariant violated: " ++ what
  | invalidPrefixLength len min max =>
      "prefix length " ++ toString len ++ " outside valid range [" ++ toString min ++ "..=" ++
        toString max ++ "]"
  | prefixMismatch expected actual =>
      "owner pubkey does not match parameters prefix: expected " ++ expected ++ ", got " ++ actual
  | invalidPrefixChars => "prefix contains invalid base58 characters"

/-- How a call ends when it does not return a value: with an error, or in a
panic (a failing `expect`, an allocation that fails). -/
inductive Fault (ε : Type) where
  | err (e : ε)
  | panicked
deriving DecidableEq, Repr

/-- The result of a call. -/
abbrev Outcome (ε α : Type) := Except (Fault ε) α

/-- A call that does not panic returns. -/
theorem returns_iff {ε α : Type} {out : Outcome ε α} :
    ((∃ a, out = .ok a) ∨ ∃ e, out = .error (.err e)) ↔ out ≠ .error .panicked := by
  cases out with
  | ok a => exact ⟨fun _ h => (nomatch h), fun _ => .inl ⟨a, rfl⟩⟩
  | error fault =>
      cases fault with
      | err e => exact ⟨fun _ h => (nomatch h), fun _ => .inr ⟨e, rfl⟩⟩
      | panicked =>
          refine ⟨fun h => ?_, fun h => absurd rfl h⟩
          rcases h with ⟨a, h⟩ | ⟨e, h⟩ <;> cases h

/-! ## What other packages provide -/

/-- The functions of other packages that the contract calls. -/
structure Crypto where
  /-- `blake3::hash`. -/
  blake3 : Bytes → Vector UInt8 32
  /-- `ed25519_compact`: decoding the key and the signature and verifying. -/
  verify : PublicKey → Bytes → Signature → Bool
  /-- `bs58::encode(..).into_string()`; its output is ASCII. -/
  bs58Encode : PublicKey → String
  /-- Whether `bs58::decode(..).into_vec()` succeeds. -/
  bs58Decodes : String → Bool
  /-- The text of `bincode`'s error on these bytes. -/
  bincodeError : Bytes → String

/-- `pubkey_prefix`: the first `len` characters of the key in base58. -/
def pubkeyPrefix (cr : Crypto) (owner : PublicKey) (len : Nat) : String :=
  let encoded := cr.bs58Encode owner
  let take := min len encoded.length
  String.ofList (encoded.toList.take take)

/-- `RepoParams::from_owner`. -/
def RepoParams.fromOwner (cr : Crypto) (owner : PublicKey) (len : Nat) : RepoParams :=
  ⟨pubkeyPrefix cr owner len⟩

end FreenetGit
