/-
# `FreenetGit.Sealing` — a sealed bundle opens to itself, and nothing else opens

The cipher is ideal with respect to a log of the encryptions that were made: it
decrypts those, each under its own key, nonce and associated data, and nothing
else (`DecryptsOnly`).  After one `seal` the log is that one encryption
(`sealing`).  The associated data covers the header and the parameters of the key
derivation, so an envelope that differs in any field does not open, and neither
does the sealed one under another key (`seal_opens_only`).
-/
import FreenetGit.Identity
import FreenetGit.Sample

namespace FreenetGit

open Lib

/-! ## The ideal cipher -/

/-- An encryption that was made. -/
structure Encryption where
  key : Vector UInt8 32
  nonce : Vector UInt8 24
  aad : Bytes
  msg : Bytes
  ciphertext : Bytes

/-- The cipher decrypts what is in the log, and nothing else. -/
structure DecryptsOnly (bc : BundleCrypto) (log : Set Encryption) : Prop where
  decrypts : ∀ e ∈ log, bc.decrypt e.key e.nonce e.aad e.ciphertext = some e.msg
  only : ∀ {key nonce aad c msg}, bc.decrypt key nonce aad c = some msg →
    ⟨key, nonce, aad, msg, c⟩ ∈ log

/-- The cipher encrypts every message, with a tag of 16 bytes. -/
def EncryptsAll (bc : BundleCrypto) : Prop :=
  ∀ key nonce aad msg, ∃ c, bc.encrypt key nonce aad msg = some c ∧ c.length = msg.length + 16

/-- `scrypt` takes the parameters of a fresh envelope, and answers where it takes the parameters. -/
structure ScryptAnswers (bc : BundleCrypto) : Prop where
  params : bc.scryptParams kdfMin.logN kdfMin.r kdfMin.p = .ok ()
  derives : ∀ passphrase salt logN r p, bc.scryptParams logN r p = .ok () →
    ∃ key, bc.scrypt passphrase salt logN r p = .ok key

/-- The encryption that `seal` makes. -/
def sealing (bc : BundleCrypto) (bundle : DecryptedBundle) (passphrase : String)
    (salt : Vector UInt8 16) (nonce : Vector UInt8 24) : Set Encryption :=
  {e | (KdfParams.fresh salt).deriveKey bc passphrase = .ok e.key ∧ e.nonce = nonce ∧
    v1.associatedData (KdfParams.fresh salt) = .ok e.aad ∧
    bincode.decryptedBundle.enc bundle = some e.msg ∧
    bc.encrypt e.key e.nonce e.aad e.msg = some e.ciphertext}

theorem sealing_unique {bc : BundleCrypto} {bundle : DecryptedBundle} {passphrase : String}
    {salt : Vector UInt8 16} {nonce : Vector UInt8 24} {e e' : Encryption}
    (h : e ∈ sealing bc bundle passphrase salt nonce)
    (h' : e' ∈ sealing bc bundle passphrase salt nonce) : e = e' := by
  obtain ⟨key, n, aad, msg, c⟩ := e
  obtain ⟨key', n', aad', msg', c'⟩ := e'
  obtain ⟨hkey, rfl, haad, hmsg, hc⟩ := h
  obtain ⟨hkey', rfl, haad', hmsg', hc'⟩ := h'
  cases hkey.symm.trans hkey'
  cases haad.symm.trans haad'
  cases hmsg.symm.trans hmsg'
  cases hc.symm.trans hc'
  rfl

/-- The bundle, encoded and encrypted, has a length of 64 bits. -/
def DecryptedBundle.Sized (bundle : DecryptedBundle) : Prop :=
  ∃ payload, bincode.decryptedBundle.enc bundle = some payload ∧ payload.length + 16 < 2 ^ 64

section

variable {bc : BundleCrypto} {bundle bundle' : DecryptedBundle} {passphrase passphrase' : String}
  {salt : Vector UInt8 16} {nonce : Vector UInt8 24} {bytes bytes' : Bytes} {env env' : Envelope}

/-! ## The header -/

/-- **The peeked header** is the magic and the version of the envelope that the bytes decode to. -/
theorem peekEnvelopeHeader_read (h : bincode.envelope.read bytes = some env) :
    peekEnvelopeHeader bytes = .ok (env.magic, env.version) := by
  obtain ⟨⟨_, rest⟩, hdec, rfl⟩ := Option.map_eq_some_iff.mp h
  simp only [bincode.envelope, Codec.imap, Codec.pair, Option.bind_eq_some_iff,
    Option.map_eq_some_iff] at hdec
  obtain ⟨_, ⟨⟨magic, bs₁⟩, hmagic, _, ⟨⟨version, bs₂⟩, hversion, _, -, rfl⟩, rfl⟩, _, ⟨⟩, ⟨⟩⟩ := hdec
  obtain ⟨v, hv, ⟨⟩⟩ := Option.map_eq_some_iff.mp hmagic
  have hv := length_of_toArray? hv
  change (if 4 ≤ (bytes.drop 8).length then _ else _) = _ at hversion
  split at hversion
  · next hlen =>
      cases hversion
      rw [List.length_drop] at hlen
      rw [peekEnvelopeHeader, if_neg (by rw [envelopeHeaderLen]; omega)]
      congr 2
      refine Vector.ext fun i hi => ?_
      have hget : magic.toList[i]? = bytes[i]? := by rw [← hv, List.getElem?_take_of_lt hi]
      rw [Vector.getElem_ofFn, List.getD_eq_getElem?_getD, ← hget, List.getElem?_eq_getElem (by simpa),
        Option.getD_some, Vector.getElem_toList]
  · cases hversion

/-! ## What opens -/

/-- What `open` has checked when it answers. -/
structure Opened (bc : BundleCrypto) (bytes : Bytes) (passphrase : String)
    (bundle : DecryptedBundle) (env : Envelope) where
  key : Vector UInt8 32
  nonce : Vector UInt8 24
  aad : Bytes
  plaintext : Bytes
  read_eq : bincode.envelope.read bytes = some env
  magic_eq : env.magic = v1.magic
  version_eq : env.version = v1.version
  key_eq : env.kdf.deriveKey bc passphrase = .ok key
  aad_eq : v1.associatedData env.kdf = .ok aad
  nonce_eq : env.nonce = nonce.toList
  decrypt_eq : bc.decrypt key nonce aad env.ciphertext = some plaintext
  bundle_eq : bincode.decryptedBundle.read plaintext = some bundle

theorem opened_of_open (h : openBundle bc bytes passphrase = .ok bundle) :
    ∃ env, Nonempty (Opened bc bytes passphrase bundle env) := by
  unfold openBundle at h
  split at h
  · cases h
  · split at h
    · split at h
      · unfold v1.openBundle at h
        split at h
        · cases h
        · next env hread =>
            split at h
            · cases h
            · next hmagic =>
                split at h
                · cases h
                · next hversion =>
                    split at h
                    · cases h
                    · cases h
                    · cases h
                    · next key aad nonce hkey haad hnonce =>
                        split at h
                        · cases h
                        · next plaintext hdec =>
                            split at h
                            · cases h
                            · next bundle' hbundle =>
                                cases h
                                exact ⟨env, ⟨⟨key, nonce, aad, plaintext, hread, not_not.mp hmagic,
                                  not_not.mp hversion, hkey, haad, length_of_toArray? hnonce, hdec,
                                  hbundle⟩⟩⟩
      · cases h
    · cases h

/-- The associated data is made of all of the parameters. -/
theorem associatedData_inj {kdf kdf' : KdfParams} {aad : Bytes}
    (h : v1.associatedData kdf = .ok aad) (h' : v1.associatedData kdf' = .ok aad) : kdf = kdf' := by
  obtain ⟨x, hx, h⟩ := bind_eq_ok.mp h
  obtain ⟨y, hy, h'⟩ := bind_eq_ok.mp h'
  cases h
  have hxy : y = x := List.append_cancel_left (Except.ok.inj h')
  subst hxy
  have hread := bincode.kdfParams.read_enc (serialize_eq_ok.mp hx)
  rw [bincode.kdfParams.read_enc (serialize_eq_ok.mp hy)] at hread
  exact (Option.some.inj hread).symm

/-! ## What is sealed -/

/-- A fresh envelope has a key for every passphrase. -/
theorem exists_deriveKey (hscrypt : ScryptAnswers bc) (passphrase : String)
    (salt : Vector UInt8 16) : ∃ key, (KdfParams.fresh salt).deriveKey bc passphrase = .ok key := by
  unfold KdfParams.deriveKey
  split
  · exact ⟨_, rfl⟩
  · have hmin : (KdfParams.fresh salt).enforceMinimum = .ok () := by
      simp [KdfParams.enforceMinimum, KdfParams.fresh]
    obtain ⟨key, hkey⟩ := hscrypt.derives (utf8 passphrase) salt.toList _ _ _ hscrypt.params
    refine ⟨key, bind_eq_ok.mpr ⟨(), hmin, ?_⟩⟩
    have hparams : bc.scryptParams (KdfParams.fresh salt).logN (KdfParams.fresh salt).r
        (KdfParams.fresh salt).p = .ok () := hscrypt.params
    rw [hparams]
    dsimp only
    have hkey : bc.scrypt (utf8 passphrase) (KdfParams.fresh salt).salt (KdfParams.fresh salt).logN
        (KdfParams.fresh salt).r (KdfParams.fresh salt).p = .ok key := hkey
    rw [hkey]

/-- `seal` answers. -/
theorem exists_seal (hcipher : EncryptsAll bc) (hscrypt : ScryptAnswers bc) (passphrase : String)
    (salt : Vector UInt8 16) (nonce : Vector UInt8 24) (hsize : bundle.Sized) :
    ∃ bytes, sealBundle bc bundle passphrase salt nonce = .ok bytes := by
  obtain ⟨key, hkey⟩ := exists_deriveKey hscrypt passphrase salt
  obtain ⟨payload, hpayload, hlen⟩ := hsize
  have hkdf : bincode.kdfParams.Fits (KdfParams.fresh salt) := by
    simp [bincode.kdfParams, KdfParams.fresh]
  obtain ⟨kdf, henc⟩ := hkdf
  have haad : v1.associatedData (KdfParams.fresh salt) =
      .ok (v1.magic.toList ++ u32le v1.version ++ kdf) :=
    bind_eq_ok.mpr ⟨kdf, serialize_eq_ok.mpr henc, rfl⟩
  obtain ⟨c, hc, hclen⟩ := hcipher key nonce (v1.magic.toList ++ u32le v1.version ++ kdf) payload
  have hfits : bincode.envelope.Fits
      ⟨v1.magic, v1.version, KdfParams.fresh salt, nonce.toList, c⟩ := by
    simpa [bincode.envelope, bincode.kdfParams, KdfParams.fresh] using hclen.trans_lt hlen
  obtain ⟨bytes, hbytes⟩ := hfits
  refine ⟨bytes, bind_eq_ok.mpr ⟨key, hkey, bind_eq_ok.mpr ⟨payload, serialize_eq_ok.mpr hpayload, ?_⟩⟩⟩
  refine bind_eq_ok.mpr ⟨_, haad, ?_⟩
  rw [hc]
  exact serialize_eq_ok.mpr hbytes

/-- The envelope of a sealed bundle. -/
def Sealed.envelope (h : Sealed bc bundle passphrase salt nonce bytes) : Envelope :=
  ⟨v1.magic, v1.version, KdfParams.fresh salt, nonce.toList, h.ciphertext⟩

/-- After the `seal`, only its envelope opens, and only with its key. -/
theorem Sealed.opened_only (h : Sealed bc bundle passphrase salt nonce bytes)
    (hideal : DecryptsOnly bc (sealing bc bundle passphrase salt nonce))
    (ho : Opened bc bytes' passphrase' bundle' env') : env' = h.envelope ∧ ho.key = h.key := by
  obtain ⟨hkey, hnonce, haad, hmsg, hc⟩ := hideal.only ho.decrypt_eq
  have hkeys : ho.key = h.key := Except.ok.inj (hkey.symm.trans h.key_eq)
  have haads : ho.aad = h.aad := Except.ok.inj (haad.symm.trans h.aad_eq)
  have hmsgs : ho.plaintext = h.payload := Option.some.inj (hmsg.symm.trans h.payload_eq)
  have hkdf : env'.kdf = KdfParams.fresh salt := associatedData_inj ho.aad_eq haad
  have hciphertext : env'.ciphertext = h.ciphertext := by
    dsimp only at hnonce hc
    rw [hkeys, hnonce, haads, hmsgs, h.ciphertext_eq] at hc
    exact (Option.some.inj hc).symm
  refine ⟨?_, hkeys⟩
  obtain ⟨magic, version, kdf, nonce', c⟩ := env'
  have hmagic : magic = v1.magic := ho.magic_eq
  have hversion : version = v1.version := ho.version_eq
  have hnonces : nonce' = nonce.toList := ho.nonce_eq.trans (congrArg Vector.toList hnonce)
  dsimp only at hkdf hciphertext
  rw [Sealed.envelope, hmagic, hversion, hkdf, hnonces, hciphertext]

theorem Sealed.opens_self (h : Sealed bc bundle passphrase salt nonce bytes)
    (hideal : DecryptsOnly bc (sealing bc bundle passphrase salt nonce)) :
    openBundle bc bytes passphrase = .ok bundle :=
  h.openBundle_eq_ok.mpr ⟨h.key, h.payload, h.key_eq,
    hideal.decrypts ⟨h.key, nonce, h.aad, h.payload, h.ciphertext⟩
      ⟨h.key_eq, rfl, h.aad_eq, h.payload_eq, h.ciphertext_eq⟩,
    bincode.decryptedBundle.read_enc h.payload_eq⟩

/-- **A sealed bundle opens to itself and only untampered.**  After the `seal` no
envelope opens that differs from the sealed one in any field, whatever the
passphrase, and the sealed one does not open under another key.  The peeked header
is that of the decoded envelope, sealed or not. -/
theorem seal_opens_only (hcipher : EncryptsAll bc) (hscrypt : ScryptAnswers bc)
    (hsize : bundle.Sized) (hideal : DecryptsOnly bc (sealing bc bundle passphrase salt nonce)) :
    ∃ bytes env, sealBundle bc bundle passphrase salt nonce = .ok bytes ∧
      bincode.envelope.read bytes = some env ∧ openBundle bc bytes passphrase = .ok bundle ∧
      (∀ bytes' env' passphrase' bundle', bincode.envelope.read bytes' = some env' → env' ≠ env →
        openBundle bc bytes' passphrase' ≠ .ok bundle') ∧
      (∀ passphrase' bundle', env.kdf.deriveKey bc passphrase' ≠ env.kdf.deriveKey bc passphrase →
        openBundle bc bytes passphrase' ≠ .ok bundle') ∧
      ∀ bytes' env', bincode.envelope.read bytes' = some env' →
        peekEnvelopeHeader bytes' = .ok (env'.magic, env'.version) := by
  obtain ⟨bytes, hseal⟩ := exists_seal hcipher hscrypt passphrase salt nonce hsize
  obtain ⟨h⟩ := sealBundle_eq_ok hseal
  have hread := bincode.envelope.read_enc h.bytes_eq
  refine ⟨bytes, h.envelope, hseal, hread, h.opens_self hideal, fun bytes' env' q b hread' hne ho => ?_,
    fun q b hne ho => ?_, fun _ _ => peekEnvelopeHeader_read⟩
  · obtain ⟨env, ⟨ho⟩⟩ := opened_of_open ho
    cases hread'.symm.trans ho.read_eq
    exact hne (h.opened_only hideal ho).1
  · obtain ⟨env, ⟨ho⟩⟩ := opened_of_open ho
    cases hread.symm.trans ho.read_eq
    exact hne (ho.key_eq.trans ((h.opened_only hideal ho).2 ▸ h.key_eq.symm))

end

/-! A cipher with a tag of 16 zeros, that decrypts the one ciphertext of `sealedOne`. -/

namespace Sample

/-- The bundle of a user with one repository. -/
def ownerBundle : DecryptedBundle :=
  ⟨List.replicate 32 1, List.replicate 32 2, "owner", "",
    [⟨List.replicate 32 3, List.replicate 32 4, "1111", "repo"⟩]⟩

def ownerPayload : Bytes := (bincode.decryptedBundle.enc ownerBundle).getD []

def freshKdf : Bytes := (bincode.kdfParams.enc (KdfParams.fresh (zeros 16))).getD []

def sealedOne : Encryption :=
  ⟨hash (utf8 "pw"), zeros 24, v1.magic.toList ++ u32le v1.version ++ freshKdf, ownerPayload,
    ownerPayload ++ List.replicate 16 0⟩

def tagCipher : BundleCrypto where
  scryptParams _ _ _ := .ok ()
  scrypt passphrase _ _ _ _ := .ok (hash passphrase)
  encrypt _ _ _ msg := some (msg ++ List.replicate 16 0)
  decrypt key nonce aad c :=
    if key = sealedOne.key ∧ nonce = sealedOne.nonce ∧ aad = sealedOne.aad ∧
        c = sealedOne.ciphertext then some sealedOne.msg
    else none
  bincodeError _ := ""

theorem ownerPayload_eq : bincode.decryptedBundle.enc ownerBundle = some ownerPayload := by
  obtain ⟨bs, hbs⟩ : bincode.decryptedBundle.Fits ownerBundle := by
    simp only [bincode.decryptedBundle, bincode.repoRegistryEntry, Codec.fits_imap, Codec.fits_pair,
      Codec.fits_blob, Codec.fits_string, Codec.fits_list]
    decide
  rw [ownerPayload, hbs]
  rfl

theorem ownerBundle_sized : ownerBundle.Sized := ⟨ownerPayload, ownerPayload_eq, by decide +kernel⟩

theorem freshKdf_eq : bincode.kdfParams.enc (KdfParams.fresh (zeros 16)) = some freshKdf := by
  obtain ⟨bs, hbs⟩ : bincode.kdfParams.Fits (KdfParams.fresh (zeros 16)) := by
    simp [bincode.kdfParams, KdfParams.fresh]
  rw [freshKdf, hbs]
  rfl

theorem sealedOne_mem : sealedOne ∈ sealing tagCipher ownerBundle "pw" (zeros 16) (zeros 24) :=
  ⟨rfl, rfl, bind_eq_ok.mpr ⟨freshKdf, serialize_eq_ok.mpr freshKdf_eq, rfl⟩, ownerPayload_eq, rfl⟩

theorem tagCipher_encrypts : EncryptsAll tagCipher := fun _ _ _ msg =>
  ⟨msg ++ List.replicate 16 0, rfl, by rw [List.length_append, List.length_replicate]⟩

theorem tagCipher_scrypt : ScryptAnswers tagCipher := ⟨rfl, fun _ _ _ _ _ _ => ⟨_, rfl⟩⟩

theorem tagCipher_decryptsOnly :
    DecryptsOnly tagCipher (sealing tagCipher ownerBundle "pw" (zeros 16) (zeros 24)) where
  decrypts e he := by
    cases sealing_unique he sealedOne_mem
    simp only [tagCipher, and_self, if_true]
  only {key nonce aad c msg} h := by
    change (if _ then _ else _) = some msg at h
    split at h
    · next heq =>
        obtain ⟨rfl, rfl, rfl, rfl⟩ := heq
        cases h
        exact sealedOne_mem
    · cases h

end Sample

/-- A bundle with a repository, under the cipher that knows it. -/
theorem seal_opens_only_owner : ∃ bytes env,
    sealBundle Sample.tagCipher Sample.ownerBundle "pw" (zeros 16) (zeros 24) = .ok bytes ∧
    bincode.envelope.read bytes = some env ∧
    openBundle Sample.tagCipher bytes "pw" = .ok Sample.ownerBundle ∧
    (∀ bytes' env' passphrase' bundle', bincode.envelope.read bytes' = some env' → env' ≠ env →
      openBundle Sample.tagCipher bytes' passphrase' ≠ .ok bundle') ∧
    (∀ passphrase' bundle', env.kdf.deriveKey Sample.tagCipher passphrase' ≠
        env.kdf.deriveKey Sample.tagCipher "pw" →
      openBundle Sample.tagCipher bytes passphrase' ≠ .ok bundle') ∧
    ∀ bytes' env', bincode.envelope.read bytes' = some env' →
      peekEnvelopeHeader bytes' = .ok (env'.magic, env'.version) :=
  seal_opens_only Sample.tagCipher_encrypts Sample.tagCipher_scrypt
    Sample.ownerBundle_sized Sample.tagCipher_decryptsOnly

end FreenetGit
