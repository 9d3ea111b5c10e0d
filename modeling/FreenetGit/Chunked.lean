/-
# `FreenetGit.Chunked` — packs in chunks

A pack larger than the chunk size is stored as several contracts, one for each
chunk, and one more for a manifest that lists their hashes.  The manifest is
checked before it is published.
-/
import FreenetGit.Bincode

namespace FreenetGit

open Lib

/-! ## The chunks of a pack -/

/-- `slice::chunks(..).len()`: the last chunk may be shorter. -/
def chunkTotal (len chunkSize : Nat) : Nat :=
  len / chunkSize + if len % chunkSize = 0 then 0 else 1

/-- `split_pack`. -/
def splitPack (pack : Bytes) (chunkSize : UInt32) : List Bytes :=
  (List.range (chunkTotal pack.length chunkSize.toNat)).map fun i =>
    (pack.drop (i * chunkSize.toNat)).take chunkSize.toNat

theorem le_chunkTotal_mul {len chunkSize : Nat} (h : 0 < chunkSize) :
    len ≤ chunkTotal len chunkSize * chunkSize := by
  have hdiv := Nat.div_add_mod len chunkSize
  have hmod := Nat.mod_lt len h
  rw [chunkTotal, Nat.add_mul, Nat.mul_comm (len / chunkSize)]
  split <;> omega

/-- The first `k` chunks, one after another. -/
theorem flatten_chunks (pack : Bytes) (c : Nat) : ∀ k : Nat,
    ((List.range k).map fun i => (pack.drop (i * c)).take c).flatten = pack.take (k * c)
  | 0 => by simp
  | k + 1 => by
      rw [List.range_succ, List.map_append, List.flatten_append, flatten_chunks pack c k,
        Nat.succ_mul, List.take_add]
      simp

/-- **The chunks make up the pack.** -/
theorem flatten_splitPack {pack : Bytes} {chunkSize : UInt32} (h : chunkSize ≠ 0) :
    (splitPack pack chunkSize).flatten = pack := by
  have hpos : 0 < chunkSize.toNat := by
    rcases Nat.eq_zero_or_pos chunkSize.toNat with h0 | h0
    · exact absurd (UInt32.toNat_inj.mp h0) h
    · exact h0
  rw [splitPack, flatten_chunks]
  exact List.take_of_length_le (le_chunkTotal_mul hpos)

/-! ## The manifest -/

inductive ManifestError where
  | decode (msg : String)
  | unsupportedVersion (version : UInt8)
  | inconsistent (msg : String)
  | sizeOutOfRange (total : UInt64) (count chunk : UInt32)
deriving DecidableEq

def ManifestError.display : ManifestError → String
  | .decode msg => "manifest decode: " ++ msg
  | .unsupportedVersion v => "manifest version " ++ toString v ++ " is not supported"
  | .inconsistent msg => "manifest internal inconsistency: " ++ msg
  | .sizeOutOfRange total count chunk => "manifest total_size " ++ toString total ++
      " cannot fit " ++ toString count ++ " chunks of size " ++ toString chunk

structure ChunkedPackManifestV1 where
  version : UInt8
  chunkSize : UInt32
  totalSize : UInt64
  chunkCount : UInt32
  chunkHashes : List PackHash
deriving DecidableEq

/-- `u64::checked_mul`. -/
def checkedMul (a b : UInt64) : Option UInt64 :=
  if a.toNat * b.toNat < 2 ^ 64 then some (a * b) else none

namespace ChunkedPackManifestV1

/-- `ChunkedPackManifestV1::from_chunks`: 2³² chunks fail its `expect`. -/
def fromChunks {ε : Type} (cr : Crypto) (chunkSize : UInt32) (chunks : List Bytes) :
    Outcome ε ChunkedPackManifestV1 :=
  if chunks.length < 2 ^ 32 then
    .ok {
      version := 1
      chunkSize := chunkSize
      totalSize := (chunks.map fun c => UInt64.ofNat c.length).sum
      chunkCount := UInt32.ofNat chunks.length
      chunkHashes := chunks.map cr.blake3 }
  else .error .panicked

/-- `ChunkedPackManifestV1::validate`. -/
def validate (m : ChunkedPackManifestV1) : Except ManifestError Unit :=
  let outOfRange : ManifestError := .sizeOutOfRange m.totalSize m.chunkCount m.chunkSize
  if m.version ≠ 1 then .error (.unsupportedVersion m.version)
  else if m.chunkCount = 0 then .error (.inconsistent "chunk_count must be > 0")
  else if m.chunkSize = 0 then .error (.inconsistent "chunk_size must be > 0")
  else if m.totalSize = 0 then .error (.inconsistent "total_size must be > 0")
  else if m.chunkCount.toNat ≠ m.chunkHashes.length then
    .error (.inconsistent "chunk_count does not match chunk_hashes length")
  else
    match checkedMul m.chunkSize.toUInt64 m.chunkCount.toUInt64,
        checkedMul m.chunkSize.toUInt64 (m.chunkCount.toUInt64 - 1) with
    | some upper, some lower =>
        if m.totalSize > upper ∨ m.totalSize ≤ lower then .error outOfRange else .ok ()
    | _, _ => .error outOfRange

end ChunkedPackManifestV1

/-- The wire format: the hashes are blobs behind their number. -/
def bincode.manifest : Codec ChunkedPackManifestV1 :=
  (Codec.u8.pair (Codec.u32.pair (Codec.u64.pair (Codec.u32.pair
    (.list (.arrayBlob 32)))))).imap
    (fun m => (m.version, m.chunkSize, m.totalSize, m.chunkCount, m.chunkHashes))
    (fun p => some ⟨p.1, p.2.1, p.2.2.1, p.2.2.2.1, p.2.2.2.2⟩) fun _ => rfl

/-- `ChunkedPackManifestV1::to_bytes`. -/
def ChunkedPackManifestV1.toBytes (m : ChunkedPackManifestV1) : Option Bytes :=
  bincode.manifest.enc m

namespace ChunkedPackManifestV1

variable {ε : Type} {cr : Crypto} {chunkSize : UInt32} {chunks : List Bytes}
  {m : ChunkedPackManifestV1}

/-- Two 32-bit numbers have a product of 64 bits. -/
theorem mul_toUInt64_lt (a b : UInt32) : a.toUInt64.toNat * b.toUInt64.toNat < 2 ^ 64 :=
  calc a.toNat * b.toNat < 2 ^ 32 * 2 ^ 32 := Nat.mul_lt_mul'' a.toNat_lt b.toNat_lt
    _ = 2 ^ 64 := rfl

theorem checkedMul_toUInt64 (a b : UInt32) :
    checkedMul a.toUInt64 b.toUInt64 = some (a.toUInt64 * b.toUInt64) ∧
      (a.toUInt64 * b.toUInt64).toNat = a.toNat * b.toNat := by
  refine ⟨if_pos (mul_toUInt64_lt a b), ?_⟩
  rw [UInt64.toNat_mul]
  exact Nat.mod_eq_of_lt (mul_toUInt64_lt a b)

theorem pred_toUInt64 {a : UInt32} (h : a ≠ 0) :
    a.toUInt64 - 1 = (a - 1).toUInt64 ∧ (a - 1).toNat = a.toNat - 1 := by
  have hpos : 1 ≤ a.toNat := Nat.pos_of_ne_zero fun h0 => h (UInt32.toNat_inj.mp h0)
  have h32 : (a - 1).toNat = a.toNat - 1 := UInt32.toNat_sub_of_le _ _ hpos
  refine ⟨UInt64.toNat_inj.mp ?_, h32⟩
  rw [UInt32.toNat_toUInt64, h32]
  exact UInt64.toNat_sub_of_le _ _ hpos

/-- **What the checks come to**: the last chunk has to take what is left. -/
theorem validate_eq_ok_iff : m.validate = .ok () ↔
    m.version = 1 ∧ 0 < m.chunkCount.toNat ∧ m.chunkHashes.length = m.chunkCount.toNat ∧
      m.chunkSize.toNat * (m.chunkCount.toNat - 1) < m.totalSize.toNat ∧
      m.totalSize.toNat ≤ m.chunkSize.toNat * m.chunkCount.toNat := by
  obtain ⟨hupper, hupperNat⟩ := checkedMul_toUInt64 m.chunkSize m.chunkCount
  constructor
  · intro h
    rw [validate] at h
    split_ifs at h with hversion hcount hsize htotal hlen
    obtain ⟨hpred, hpredNat⟩ := pred_toUInt64 hcount
    obtain ⟨hlower, hlowerNat⟩ := checkedMul_toUInt64 m.chunkSize (m.chunkCount - 1)
    rw [hpred, hupper, hlower] at h
    dsimp only at h
    split_ifs at h with hrange
    rw [not_or, UInt64.not_lt, UInt64.not_le, UInt64.le_iff_toNat_le, UInt64.lt_iff_toNat_lt,
      hupperNat, hlowerNat, hpredNat] at hrange
    refine ⟨not_not.mp hversion, ?_, (not_not.mp hlen).symm, hrange.2, hrange.1⟩
    exact Nat.pos_of_ne_zero fun h0 => hcount (UInt32.toNat_inj.mp h0)
  · rintro ⟨hversion, hcount, hlen, hlo, hhi⟩
    have hcount0 : m.chunkCount ≠ 0 := fun h0 => hcount.ne' (by rw [h0]; rfl)
    have htotal0 : m.totalSize ≠ 0 := fun h0 => by
      rw [h0] at hlo
      exact absurd hlo (Nat.not_lt_zero _)
    have hsize0 : m.chunkSize ≠ 0 := fun h0 => by
      rw [h0] at hlo hhi
      have hzero : (0 : UInt32).toNat = 0 := rfl
      rw [hzero, Nat.zero_mul] at hlo hhi
      exact absurd hlo hhi.not_gt
    obtain ⟨hpred, hpredNat⟩ := pred_toUInt64 hcount0
    obtain ⟨hlower, hlowerNat⟩ := checkedMul_toUInt64 m.chunkSize (m.chunkCount - 1)
    rw [validate, if_neg (not_not_intro hversion), if_neg hcount0, if_neg hsize0, if_neg htotal0,
      if_neg (not_not_intro hlen.symm), hpred, hupper, hlower]
    refine if_neg ?_
    rw [not_or, UInt64.not_lt, UInt64.not_le, UInt64.le_iff_toNat_le, UInt64.lt_iff_toNat_lt,
      hupperNat, hlowerNat, hpredNat]
    exact ⟨hhi, hlo⟩

theorem fromChunks_eq_ok (h : fromChunks (ε := ε) cr chunkSize chunks = .ok m) :
    m.chunkHashes = chunks.map cr.blake3 ∧ chunks.length < 2 ^ 32 := by
  rw [fromChunks] at h
  split at h
  · next hl =>
      cases h
      exact ⟨rfl, hl⟩
  · cases h

/-- **The `expect` of `to_bytes` never fails on a manifest of chunks.** -/
theorem exists_toBytes (h : fromChunks (ε := ε) cr chunkSize chunks = .ok m) :
    ∃ bs, m.toBytes = some bs := by
  obtain ⟨hhashes, hlen⟩ := fromChunks_eq_ok h
  have hl : m.chunkHashes.length < 2 ^ 64 := by
    rw [hhashes, List.length_map]
    omega
  have hfits : (Codec.list (.arrayBlob 32)).Fits m.chunkHashes :=
    Codec.fits_list.mpr ⟨hl, fun v _ => Codec.fits_arrayBlob (by decide) v⟩
  show (Codec.u8.pair (Codec.u32.pair (Codec.u64.pair (Codec.u32.pair
    (.list (.arrayBlob 32)))))).Fits
    (m.version, m.chunkSize, m.totalSize, m.chunkCount, m.chunkHashes)
  simp only [Codec.fits_pair, Codec.fits_u8, Codec.fits_u32, Codec.fits_u64, true_and]
  exact hfits

end ChunkedPackManifestV1

end FreenetGit
