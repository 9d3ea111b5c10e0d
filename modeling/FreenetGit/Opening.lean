/-
# `FreenetGit.Opening` — when opening a bundle panics

Three fields of an envelope have a length of their own: the salt, the nonce and the
ciphertext.  The salt is checked with the parameters of the key derivation, unless the
passphrase is empty; the cipher takes a ciphertext of any length.  The nonce is
converted to an array of 24 bytes without a check (`openBundle_returns_iff`).
-/
import FreenetGit.Sealing

namespace FreenetGit

open Lib

section

variable {bc : BundleCrypto} {kdf : KdfParams} {env : Envelope} {bytes : Bytes}
  {passphrase : String}

/-! ## The key derivation -/

/-- The parameters give a key for the passphrase: it is empty, or they are strong enough
and `scrypt` takes them. -/
def KdfParams.Derives (bc : BundleCrypto) (kdf : KdfParams) (passphrase : String) : Prop :=
  passphrase = "" ∨
    (kdfMin.logN ≤ kdf.logN ∧ kdfMin.r ≤ kdf.r ∧ kdfMin.p ≤ kdf.p ∧ kdf.salt.length = 16) ∧
      bc.scryptParams kdf.logN kdf.r kdf.p = .ok () ∧
      ∃ key, bc.scrypt (utf8 passphrase) kdf.salt kdf.logN kdf.r kdf.p = .ok key

theorem enforceMinimum_eq_ok : kdf.enforceMinimum = .ok () ↔
    kdfMin.logN ≤ kdf.logN ∧ kdfMin.r ≤ kdf.r ∧ kdfMin.p ≤ kdf.p ∧ kdf.salt.length = 16 := by
  rw [KdfParams.enforceMinimum]
  split_ifs with hlogN hr hp hsalt
  · exact iff_of_false not_false fun h => absurd hlogN (UInt8.not_lt.mpr h.1)
  · exact iff_of_false not_false fun h => absurd hr (UInt32.not_lt.mpr h.2.1)
  · exact iff_of_false not_false fun h => absurd hp (UInt32.not_lt.mpr h.2.2.1)
  · exact iff_of_false not_false fun h => absurd h.2.2.2 hsalt
  · exact ⟨fun _ => ⟨UInt8.not_lt.mp hlogN, UInt32.not_lt.mp hr, UInt32.not_lt.mp hp,
      not_not.mp hsalt⟩, fun _ => rfl⟩

theorem exists_deriveKey_iff :
    (∃ key, kdf.deriveKey bc passphrase = .ok key) ↔ kdf.Derives bc passphrase := by
  rw [KdfParams.deriveKey, KdfParams.Derives, ← enforceMinimum_eq_ok]
  by_cases hempty : passphrase = ""
  · subst hempty
    exact ⟨fun _ => .inl rfl, fun _ => ⟨zeros 32, rfl⟩⟩
  · rw [if_neg (by rwa [String.isEmpty_iff])]
    constructor
    · rintro ⟨key, h⟩
      obtain ⟨⟨⟩, hmin, h⟩ := bind_eq_ok.mp h
      refine .inr ⟨hmin, ?_⟩
      cases hparams : bc.scryptParams kdf.logN kdf.r kdf.p with
      | error e =>
          rw [hparams] at h
          cases h
      | ok _ =>
          rw [hparams] at h
          cases hscrypt : bc.scrypt (utf8 passphrase) kdf.salt kdf.logN kdf.r kdf.p with
          | error e =>
              rw [hscrypt] at h
              cases h
          | ok key => exact ⟨rfl, key, rfl⟩
    · rintro (h | ⟨hmin, hparams, key, hscrypt⟩)
      · exact absurd h hempty
      · refine ⟨key, bind_eq_ok.mpr ⟨(), hmin, ?_⟩⟩
        rw [hparams, hscrypt]

/-! ## The envelope -/

/-- The parameters that were read can be written. -/
theorem exists_associatedData (h : bincode.envelope.read bytes = some env) :
    ∃ aad, v1.associatedData env.kdf = .ok aad := by
  obtain ⟨⟨_, rest⟩, hdec, rfl⟩ := Option.map_eq_some_iff.mp h
  have hblob : Codec.blob.ReadsFit := Codec.readsFit_blob
  have hkdf : bincode.kdfParams.ReadsFit :=
    Codec.readsFit_imap (Codec.readsFit_pair hblob (Codec.readsFit_of_fits fun _ => by simp))
      fun _ _ hfits heq => by cases heq; exact hfits
  have hrest : (Codec.u32.pair (bincode.kdfParams.pair (Codec.blob.pair .blob))).ReadsFit :=
    Codec.readsFit_pair (Codec.readsFit_of_fits Codec.fits_u32)
      (Codec.readsFit_pair hkdf (Codec.readsFit_pair hblob hblob))
  have henv : bincode.envelope.ReadsFit :=
    Codec.readsFit_imap (Codec.readsFit_pair (Codec.readsFit_of_fits Codec.fits_array) hrest)
      fun _ _ hfits heq => by cases heq; exact hfits
  have hfits := henv _ _ _ hdec
  rw [bincode.envelope, Codec.fits_imap, Codec.fits_pair, Codec.fits_pair, Codec.fits_pair] at hfits
  obtain ⟨-, -, ⟨kdf, hkdf⟩, -⟩ := hfits
  exact ⟨_, bind_eq_ok.mpr ⟨kdf, serialize_eq_ok.mpr hkdf, rfl⟩⟩

/-- The envelope reaches the cipher with this passphrase. -/
structure Envelope.Reaches (bc : BundleCrypto) (env : Envelope) (passphrase : String) : Prop where
  magic_eq : env.magic = v1.magic
  version_eq : env.version = v1.version
  derives : env.kdf.Derives bc passphrase

theorem toArray?_eq_none {n : Nat} {bs : Bytes} : toArray? n bs = none ↔ bs.length ≠ n := by
  rw [toArray?]
  split
  · next h => exact iff_of_false (Option.some_ne_none _) (not_not_intro h)
  · next h => exact iff_of_true rfl h

theorem v1_openBundle_panicked_iff : v1.openBundle bc bytes passphrase = .error .panicked ↔
    ∃ env, bincode.envelope.read bytes = some env ∧ env.Reaches bc passphrase ∧
      env.nonce.length ≠ 24 := by
  constructor
  · intro h
    unfold v1.openBundle at h
    split at h
    · cases h
    · next env hread =>
        split at h
        · cases h
        · next hmagic =>
            split at h
            · cases h
            · next hversion =>
                split at h
                · cases h
                · cases h
                · next key aad hkey haad hnonce =>
                    exact ⟨env, hread, ⟨not_not.mp hmagic, not_not.mp hversion,
                      exists_deriveKey_iff.mp ⟨key, hkey⟩⟩, toArray?_eq_none.mp hnonce⟩
                · next key aad nonce hkey haad hnonce =>
                    split at h
                    · cases h
                    · split at h <;> cases h
  · rintro ⟨env, hread, ⟨hmagic, hversion, hderives⟩, hnonce⟩
    obtain ⟨key, hkey⟩ := exists_deriveKey_iff.mpr hderives
    obtain ⟨aad, haad⟩ := exists_associatedData hread
    rw [v1.openBundle, hread]
    dsimp only
    rw [if_neg (not_not_intro hmagic), if_neg (not_not_intro hversion), hkey, haad,
      toArray?_eq_none.mpr hnonce]

theorem openBundle_panicked_iff : openBundle bc bytes passphrase = .error .panicked ↔
    ∃ env, bincode.envelope.read bytes = some env ∧ env.Reaches bc passphrase ∧
      env.nonce.length ≠ 24 := by
  constructor
  · intro h
    unfold openBundle at h
    split at h
    · cases h
    · split at h
      · split at h
        · exact v1_openBundle_panicked_iff.mp h
        · cases h
      · cases h
  · rintro ⟨env, hread, hreaches, hnonce⟩
    rw [openBundle, peekEnvelopeHeader_read hread]
    dsimp only
    rw [if_pos hreaches.magic_eq, if_pos hreaches.version_eq]
    exact v1_openBundle_panicked_iff.mpr ⟨env, hread, hreaches, hnonce⟩

/-- **Opening returns, unless an envelope that reaches the cipher has a nonce of another
length.** -/
theorem openBundle_returns_iff (bc : BundleCrypto) (bytes : Bytes) (passphrase : String) :
    ((∃ bundle, openBundle bc bytes passphrase = .ok bundle) ∨
      ∃ e, openBundle bc bytes passphrase = .error (.err e)) ↔
      ∀ env, bincode.envelope.read bytes = some env → env.Reaches bc passphrase →
        env.nonce.length = 24 := by
  rw [returns_iff, Ne, openBundle_panicked_iff]
  push Not
  rfl

end

/-- An envelope without salt, nonce and ciphertext. -/
def Sample.bareEnvelope : Bytes := v1.magic.toList ++ u32le v1.version ++ List.replicate 33 0

theorem openBundle_bareEnvelope :
    openBundle Sample.tagCipher Sample.bareEnvelope "" = .error .panicked ∧
    ¬ ∀ bytes passphrase, (∃ bundle, openBundle Sample.tagCipher bytes passphrase = .ok bundle) ∨
      ∃ e, openBundle Sample.tagCipher bytes passphrase = .error (.err e) := by
  have hpanic : openBundle Sample.tagCipher Sample.bareEnvelope "" = .error .panicked :=
    openBundle_panicked_iff.mpr ⟨⟨v1.magic, v1.version, ⟨[], 0, 0, 0⟩, [], []⟩, rfl,
      ⟨rfl, rfl, .inl rfl⟩, nofun⟩
  exact ⟨hpanic, fun h => returns_iff.mp (h Sample.bareEnvelope "") hpanic⟩

end FreenetGit
