/-
# `FreenetGit.Identity` — the identity bundle

A bundle holds the user's key and the keys of the repositories that were created.  On
disk it is an envelope: a magic and a version, the parameters of the key derivation, a
nonce, and the encrypted payload.  With an empty passphrase the key is all zeros.  A
sealed bundle opens to itself and to nothing else, under the assumption that the
encryption is ideal (`Sealed.opens`,
`Sealed.opens_only`).
-/
import FreenetGit.Lib.Checks
import FreenetGit.Lib.Codec
import FreenetGit.Types

namespace FreenetGit

open Lib

/-! ## The data -/

/-- The scrypt parameters of an envelope. -/
structure KdfParams where
  salt : Bytes
  logN : UInt8
  r : UInt32
  p : UInt32
deriving DecidableEq

/-- A repository that was created, with its key pair. -/
structure RepoRegistryEntry where
  repoSecret : Bytes
  repoPublic : Bytes
  prefixStr : String
  displayName : String
deriving DecidableEq

structure DecryptedBundle where
  secretKey : Bytes
  publicKey : Bytes
  name : String
  email : String
  repos : List RepoRegistryEntry
deriving DecidableEq

inductive BundleError where
  | io (e : String)
  | decode (e : String)
  | badMagic
  | weakKdf (e : String)
  | decrypt
  | unsupportedVersion (found maxSupported : UInt32)
  | crypto (e : String)
deriving DecidableEq

/-- The text of an error. -/
def BundleError.display : BundleError → String
  | io e => "io: " ++ e
  | decode e => "bundle decode: " ++ e
  | badMagic => "not a freenet-git identity bundle"
  | weakKdf e => "bundle KDF parameters too weak: " ++ e
  | decrypt => "decryption failed (wrong passphrase or corrupted bundle)"
  | unsupportedVersion found maxSupported =>
      "unsupported bundle version " ++ toString found ++
      "; this build of freenet-git supports versions up to " ++ toString maxSupported ++
      ". Upgrade freenet-git to read this bundle."
  | crypto e => "crypto: " ++ e

/-- The functions of other packages that the bundle code calls. -/
structure BundleCrypto where
  /-- `scrypt::Params::new`, or the text of its error. -/
  scryptParams : UInt8 → UInt32 → UInt32 → Except String Unit
  /-- `scrypt::scrypt` of a passphrase and a salt, or the text of its error. -/
  scrypt : Bytes → Bytes → UInt8 → UInt32 → UInt32 → Except String (Vector UInt8 32)
  /-- `XChaCha20Poly1305::encrypt` of a message with associated data. -/
  encrypt : Vector UInt8 32 → Vector UInt8 24 → Bytes → Bytes → Option Bytes
  /-- `XChaCha20Poly1305::decrypt`. -/
  decrypt : Vector UInt8 32 → Vector UInt8 24 → Bytes → Bytes → Option Bytes
  /-- The text of `bincode`'s error on these bytes. -/
  bincodeError : Bytes → String

/-- The ideal cipher: what was encrypted is decrypted with the same key, nonce and
associated data, and with no others. -/
structure IdealAead (bc : BundleCrypto) : Prop where
  decrypt_encrypt : ∀ {key nonce aad msg c}, bc.encrypt key nonce aad msg = some c →
    bc.decrypt key nonce aad c = some msg
  authentic : ∀ {key nonce aad msg c key' nonce' aad' msg'}, bc.encrypt key nonce aad msg = some c →
    bc.decrypt key' nonce' aad' c = some msg' →
    key' = key ∧ nonce' = nonce ∧ aad' = aad ∧ msg' = msg

/-! ## The key -/

namespace kdfMin

def logN : UInt8 := 17
def r : UInt32 := 8
def p : UInt32 := 1

end kdfMin

namespace KdfParams

/-- `KdfParams::fresh` with the salt that was drawn. -/
def fresh (salt : Vector UInt8 16) : KdfParams := ⟨salt.toList, kdfMin.logN, kdfMin.r, kdfMin.p⟩

/-- `KdfParams::enforce_minimum`. -/
def enforceMinimum (kdf : KdfParams) : Except BundleError Unit :=
  if kdf.logN < kdfMin.logN then
    .error (.weakKdf ("log_n = " ++ toString kdf.logN ++ " < minimum " ++ toString kdfMin.logN))
  else if kdf.r < kdfMin.r then
    .error (.weakKdf ("r = " ++ toString kdf.r ++ " < minimum " ++ toString kdfMin.r))
  else if kdf.p < kdfMin.p then
    .error (.weakKdf ("p = " ++ toString kdf.p ++ " < minimum " ++ toString kdfMin.p))
  else if kdf.salt.length ≠ 16 then
    .error (.weakKdf ("salt must be 16 bytes, got " ++ toString kdf.salt.length))
  else .ok ()

/-- `KdfParams::derive_key`: the empty passphrase skips the derivation and its checks. -/
def deriveKey (bc : BundleCrypto) (kdf : KdfParams) (passphrase : String) :
    Except BundleError (Vector UInt8 32) :=
  if passphrase.isEmpty then .ok (zeros 32)
  else do
    kdf.enforceMinimum
    match bc.scryptParams kdf.logN kdf.r kdf.p with
    | .error e => .error (.crypto ("scrypt params: " ++ e))
    | .ok () =>
        match bc.scrypt (utf8 passphrase) kdf.salt kdf.logN kdf.r kdf.p with
        | .error e => .error (.crypto ("scrypt: " ++ e))
        | .ok key => .ok key

end KdfParams

/-! ## The envelope -/

/-- The envelope on disk. -/
structure Envelope where
  magic : Vector UInt8 8
  version : UInt32
  kdf : KdfParams
  nonce : Bytes
  ciphertext : Bytes
deriving DecidableEq

namespace bincode

def kdfParams : Codec KdfParams :=
  (Codec.blob.pair (Codec.u8.pair (Codec.u32.pair .u32))).imap (fun k => (k.salt, k.logN, k.r, k.p))
    (fun t => some ⟨t.1, t.2.1, t.2.2.1, t.2.2.2⟩) fun _ => rfl

def repoRegistryEntry : Codec RepoRegistryEntry :=
  (Codec.blob.pair (Codec.blob.pair (Codec.string.pair .string))).imap
    (fun e => (e.repoSecret, e.repoPublic, e.prefixStr, e.displayName))
    (fun t => some ⟨t.1, t.2.1, t.2.2.1, t.2.2.2⟩) fun _ => rfl

def decryptedBundle : Codec DecryptedBundle :=
  (Codec.blob.pair (Codec.blob.pair (Codec.string.pair (Codec.string.pair
    (.list repoRegistryEntry))))).imap
    (fun b => (b.secretKey, b.publicKey, b.name, b.email, b.repos))
    (fun t => some ⟨t.1, t.2.1, t.2.2.1, t.2.2.2.1, t.2.2.2.2⟩) fun _ => rfl

def envelope : Codec Envelope :=
  ((Codec.array 8).pair (Codec.u32.pair (kdfParams.pair (Codec.blob.pair .blob)))).imap
    (fun e => (e.magic, e.version, e.kdf, e.nonce, e.ciphertext))
    (fun t => some ⟨t.1, t.2.1, t.2.2.1, t.2.2.2.1, t.2.2.2.2⟩) fun _ => rfl

/-- `bincode::serialize`; only a value too large for the format, hence for the memory,
has no bytes. -/
def serialize {α : Type} (A : Codec α) (what : String) (a : α) : Except BundleError Bytes :=
  match A.enc a with
  | none => .error (.crypto ("serialize " ++ what ++ ": the size limit has been reached"))
  | some bs => .ok bs

end bincode

/-- `BUNDLE_VERSION`. -/
def bundleVersion : UInt32 := 1

namespace v1

/-- `b"freegit\x01"`. -/
def magic : Vector UInt8 8 := #v[0x66, 0x72, 0x65, 0x65, 0x67, 0x69, 0x74, 0x01]

def version : UInt32 := 1

/-- `associated_data`. -/
def associatedData (kdf : KdfParams) : Except BundleError Bytes := do
  let kdfBytes ← bincode.serialize bincode.kdfParams "kdf" kdf
  .ok (magic.toList ++ u32le version ++ kdfBytes)

/-- `v1::seal` with the salt and the nonce that were drawn. -/
def sealBundle (bc : BundleCrypto) (bundle : DecryptedBundle) (passphrase : String)
    (salt : Vector UInt8 16) (nonce : Vector UInt8 24) : Except BundleError Bytes := do
  let kdf := KdfParams.fresh salt
  let key ← kdf.deriveKey bc passphrase
  let payload ← bincode.serialize bincode.decryptedBundle "bundle" bundle
  let aad ← associatedData kdf
  match bc.encrypt key nonce aad payload with
  | none => .error (.crypto "encrypt")
  | some ciphertext =>
      bincode.serialize bincode.envelope "envelope" ⟨magic, version, kdf, nonce.toList, ciphertext⟩

/-- `v1::open`; a nonce of another length panics in `GenericArray::from_slice`. -/
def openBundle (bc : BundleCrypto) (bytes : Bytes) (passphrase : String) :
    Outcome BundleError DecryptedBundle :=
  match bincode.envelope.read bytes with
  | none => .error (.err (.decode (bc.bincodeError bytes)))
  | some env =>
      if env.magic ≠ magic then .error (.err .badMagic)
      else if env.version ≠ version then .error (.err (.unsupportedVersion env.version version))
      else
        match env.kdf.deriveKey bc passphrase, associatedData env.kdf, toArray? 24 env.nonce with
        | .error e, _, _ => .error (.err e)
        | .ok _, .error e, _ => .error (.err e)
        | .ok _, .ok _, none => .error .panicked
        | .ok key, .ok aad, some nonce =>
            match bc.decrypt key nonce aad env.ciphertext with
            | none => .error (.err .decrypt)
            | some plaintext =>
                match bincode.decryptedBundle.read plaintext with
                | none => .error (.err (.decode (bc.bincodeError plaintext)))
                | some bundle => .ok bundle

end v1

/-- `ENVELOPE_HEADER_LEN`. -/
def envelopeHeaderLen : Nat := 12

/-- `peek_envelope_header`: the magic and the version. -/
def peekEnvelopeHeader (bytes : Bytes) : Except BundleError (Vector UInt8 8 × UInt32) :=
  if bytes.length < envelopeHeaderLen then
    .error (.decode ("bundle is too short to be a freenet-git identity bundle (got " ++
      toString bytes.length ++ " bytes, need at least " ++ toString envelopeHeaderLen ++ ")"))
  else
    .ok (Vector.ofFn fun i => bytes.getD i 0, UInt32.ofNat (ofLeBytes ((bytes.drop 8).take 4)))

section

variable (bc : BundleCrypto)

/-- `seal`. -/
def sealBundle (bundle : DecryptedBundle) (passphrase : String) (salt : Vector UInt8 16)
    (nonce : Vector UInt8 24) : Except BundleError Bytes :=
  v1.sealBundle bc bundle passphrase salt nonce

/-- `open`. -/
def openBundle (bytes : Bytes) (passphrase : String) : Outcome BundleError DecryptedBundle :=
  match peekEnvelopeHeader bytes with
  | .error e => .error (.err e)
  | .ok (magic, version) =>
      if magic = v1.magic then
        if version = v1.version then v1.openBundle bc bytes passphrase
        else .error (.err (.unsupportedVersion version bundleVersion))
      else .error (.err .badMagic)

end

/-! ## A sealed bundle -/

section

variable {bc : BundleCrypto} {bundle bundle' : DecryptedBundle} {passphrase passphrase' : String}
  {salt : Vector UInt8 16} {nonce : Vector UInt8 24} {bytes : Bytes}

theorem serialize_eq_ok {α : Type} {A : Codec α} {what : String} {a : α} {bs : Bytes} :
    bincode.serialize A what a = .ok bs ↔ A.enc a = some bs := by
  unfold bincode.serialize
  cases A.enc a with
  | none => exact ⟨nofun, nofun⟩
  | some b => simp only [Except.ok.injEq, Option.some.injEq]

/-- What is in a sealed bundle. -/
structure Sealed (bc : BundleCrypto) (bundle : DecryptedBundle) (passphrase : String)
    (salt : Vector UInt8 16) (nonce : Vector UInt8 24) (bytes : Bytes) where
  key : Vector UInt8 32
  payload : Bytes
  aad : Bytes
  ciphertext : Bytes
  key_eq : (KdfParams.fresh salt).deriveKey bc passphrase = .ok key
  payload_eq : bincode.decryptedBundle.enc bundle = some payload
  aad_eq : v1.associatedData (KdfParams.fresh salt) = .ok aad
  ciphertext_eq : bc.encrypt key nonce aad payload = some ciphertext
  bytes_eq : bincode.envelope.enc
    ⟨v1.magic, v1.version, KdfParams.fresh salt, nonce.toList, ciphertext⟩ = some bytes

theorem sealBundle_eq_ok (h : sealBundle bc bundle passphrase salt nonce = .ok bytes) :
    Nonempty (Sealed bc bundle passphrase salt nonce bytes) := by
  obtain ⟨key, hkey, h⟩ := bind_eq_ok.mp h
  obtain ⟨payload, hpayload, h⟩ := bind_eq_ok.mp h
  obtain ⟨aad, haad, h⟩ := bind_eq_ok.mp h
  split at h
  · cases h
  · next ciphertext hc =>
      exact ⟨⟨key, payload, aad, ciphertext, hkey, serialize_eq_ok.mp hpayload, haad, hc,
        serialize_eq_ok.mp h⟩⟩

/-- The header of an envelope is what stands in its first fields. -/
theorem peekEnvelopeHeader_enc {env : Envelope} (h : bincode.envelope.enc env = some bytes) :
    peekEnvelopeHeader bytes = .ok (env.magic, env.version) := by
  have h : (((Codec.array 8).pair (Codec.u32.pair
      (bincode.kdfParams.pair (Codec.blob.pair .blob)))).enc
        (env.magic, env.version, env.kdf, env.nonce, env.ciphertext)) = some bytes := h
  simp only [Codec.pair, Option.bind_eq_some_iff, Option.map_eq_some_iff] at h
  obtain ⟨m, hm, _, ⟨v, hv, rest, -, rfl⟩, rfl⟩ := h
  have hm : env.magic.toList = m := Option.some.inj hm
  have hv : u32le env.version = v := Option.some.inj hv
  subst hm hv
  have hlen : env.magic.toList.length = 8 := Vector.length_toList
  have hlen' : (u32le env.version).length = 4 := length_u32le _
  rw [peekEnvelopeHeader, if_neg (by simp [envelopeHeaderLen]; omega), List.drop_left' hlen,
    List.take_left' hlen', ofLeBytes_u32le, UInt32.ofNat_toNat]
  congr 2
  refine Vector.ext fun i hi => ?_
  have hi' : i < env.magic.toList.length := hi.trans_eq hlen.symm
  rw [Vector.getElem_ofFn, List.getD_eq_getElem?_getD, List.getElem?_append_left hi',
    List.getElem?_eq_getElem hi', Option.getD_some, Vector.getElem_toList]

namespace Sealed

variable (h : Sealed bc bundle passphrase salt nonce bytes)

include h

/-- Opening a sealed bundle is decrypting its ciphertext. -/
theorem openBundle_eq_ok :
    openBundle bc bytes passphrase' = .ok bundle' ↔ ∃ key' plaintext,
      (KdfParams.fresh salt).deriveKey bc passphrase' = .ok key' ∧
      bc.decrypt key' nonce h.aad h.ciphertext = some plaintext ∧
      bincode.decryptedBundle.read plaintext = some bundle' := by
  have hread := bincode.envelope.read_enc h.bytes_eq
  rw [openBundle, peekEnvelopeHeader_enc h.bytes_eq]
  simp only [if_true, v1.openBundle, hread, ne_eq, not_true_eq_false, if_false, h.aad_eq,
    toArray?_toList]
  cases hkey : (KdfParams.fresh salt).deriveKey bc passphrase' with
  | error e => simp
  | ok key' =>
      cases hdec : bc.decrypt key' nonce h.aad h.ciphertext with
      | none => simp [hdec]
      | some plaintext =>
          cases hb : bincode.decryptedBundle.read plaintext with
          | none => simp [hdec, hb]
          | some b => simp [hdec, hb]

/-- **A sealed bundle opens** under its passphrase. -/
theorem opens (ideal : IdealAead bc) : openBundle bc bytes passphrase = .ok bundle :=
  h.openBundle_eq_ok.mpr ⟨h.key, h.payload, h.key_eq, ideal.decrypt_encrypt h.ciphertext_eq,
    bincode.decryptedBundle.read_enc h.payload_eq⟩

/-- **Nothing else is in it**, whatever passphrase it is opened with. -/
theorem opens_only (ideal : IdealAead bc)
    (hopen : openBundle bc bytes passphrase' = .ok bundle') : bundle' = bundle := by
  obtain ⟨key', plaintext, -, hdec, hread⟩ := h.openBundle_eq_ok.mp hopen
  obtain ⟨-, -, -, rfl⟩ := ideal.authentic h.ciphertext_eq hdec
  rw [bincode.decryptedBundle.read_enc h.payload_eq] at hread
  exact (Option.some.inj hread).symm

end Sealed

end

end FreenetGit
