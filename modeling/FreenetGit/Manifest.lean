/-
# `FreenetGit.Manifest` — what reading a manifest is worth

A manifest comes from the network.  `validate` leaves exactly one length for each of its
chunks (`validate_pins_lengths`).  The reader before it makes room for as many hashes as
the bytes declare, whatever follows them, and dies where there is none
(`fromBytes_returns_iff`).
-/
import FreenetGit.ChunkedFetch

namespace FreenetGit

open Lib

/-! ## Lengths that make up a pack -/

/-- The lengths of `count` chunks: all but the last are `size`, the last is at most that
and not zero. -/
structure ChunkLengths (size count : Nat) (lens : List Nat) : Prop where
  length_eq : lens.length = count
  full : ∀ l ∈ lens.dropLast, l = size
  last : ∀ l ∈ lens.getLast?, 1 ≤ l ∧ l ≤ size

/-- The lengths of the chunks of a pack of `total` bytes. -/
def lengthsOf (size count total : Nat) : List Nat :=
  List.replicate (count - 1) size ++ [total - size * (count - 1)]

theorem ChunkLengths.sum_bounds {size count : Nat} {lens : List Nat}
    (h : ChunkLengths size count lens) (hcount : 0 < count) :
    size * (count - 1) < lens.sum ∧ lens.sum ≤ size * count := by
  obtain ⟨hlen, hfull, hlast⟩ := h
  rcases List.eq_nil_or_concat lens with rfl | ⟨init, l, rfl⟩
  · rw [List.length_nil] at hlen
    omega
  · rw [List.concat_eq_append] at hlen hfull hlast ⊢
    rw [List.dropLast_concat] at hfull
    rw [List.length_append, List.length_singleton] at hlen
    obtain ⟨hpos, hle⟩ := hlast l (by rw [List.getLast?_concat]; rfl)
    have hinit : init = List.replicate init.length size := List.eq_replicate_of_mem hfull
    have hsum : init.sum = size * init.length := by
      rw [hinit, List.sum_replicate, List.length_replicate, smul_eq_mul, Nat.mul_comm]
    subst hlen
    rw [List.sum_append, List.sum_singleton, hsum, Nat.add_sub_cancel, Nat.mul_succ]
    omega

theorem chunkLengths_lengthsOf {size count total : Nat} (hcount : 0 < count)
    (hlo : size * (count - 1) < total) (hhi : total ≤ size * count) :
    ChunkLengths size count (lengthsOf size count total) ∧
      (lengthsOf size count total).sum = total := by
  have hsplit : size * count = size * (count - 1) + size := by
    rw [← Nat.mul_succ, Nat.succ_eq_add_one, Nat.sub_add_cancel hcount]
  refine ⟨⟨?_, ?_, ?_⟩, ?_⟩
  · rw [lengthsOf, List.length_append, List.length_replicate, List.length_singleton]
    omega
  · intro l hl
    rw [lengthsOf, List.dropLast_concat] at hl
    exact List.eq_of_mem_replicate hl
  · intro l hl
    rw [lengthsOf, List.getLast?_concat] at hl
    cases hl
    omega
  · rw [lengthsOf, List.sum_append, List.sum_singleton, List.sum_replicate, smul_eq_mul,
      Nat.mul_comm]
    omega

/-! ## The lengths a manifest gives -/

/-- `u32` addition, as a build that checks for overflow computes it. -/
def checkedAdd (a b : UInt32) : Option UInt32 :=
  if a.toNat + b.toNat < 2 ^ 32 then some (a + b) else none

/-- `u32` subtraction, likewise. -/
def checkedSub32 (a b : UInt32) : Option UInt32 :=
  if b ≤ a then some (a - b) else none

/-- `u64` subtraction, likewise. -/
def checkedSub64 (a b : UInt64) : Option UInt64 :=
  if b ≤ a then some (a - b) else none

namespace ChunkedPackManifestV1

variable {m : ChunkedPackManifestV1} {i : UInt32}

/-- `chunk_len` where each operation is checked, and the assertion with them: `none` is
the panic of such a build. -/
def chunkLen? (m : ChunkedPackManifestV1) (i : UInt32) : Option UInt64 := do
  guard (i < m.chunkCount)
  if (← checkedAdd i 1) < m.chunkCount then
    return m.chunkSize.toUInt64
  else
    let before ← checkedMul m.chunkSize.toUInt64 (← checkedSub32 m.chunkCount 1).toUInt64
    checkedSub64 m.totalSize before

/-- `chunk_len` of every chunk, in order. -/
def chunkLens (m : ChunkedPackManifestV1) : List Nat :=
  (List.range m.chunkCount.toNat).map fun i => (m.chunkLen (UInt32.ofNat i)).toNat

theorem chunkLen?_eq (h : m.validate = .ok ()) (hi : i < m.chunkCount) :
    m.chunkLen? i = some (m.chunkLen i) := by
  obtain ⟨-, hcount, -⟩ := validate_eq_ok_iff.mp h
  have hadd : checkedAdd i 1 = some (i + 1) :=
    if_pos (Nat.lt_of_le_of_lt (UInt32.lt_iff_toNat_lt.mp hi) m.chunkCount.toNat_lt)
  have hsub : checkedSub32 m.chunkCount 1 = some (m.chunkCount - 1) := if_pos hcount
  have hmul := (checkedMul_toUInt64 m.chunkSize (m.chunkCount - 1)).1
  have hlast : checkedSub64 m.totalSize
      (m.chunkSize.toUInt64 * (m.chunkCount - 1).toUInt64) = some _ :=
    if_pos (before_last_le h).1
  simp only [chunkLen?, guard, if_pos hi, hadd, hsub, hmul, hlast, chunkLen, Option.bind_eq_bind,
    Option.bind_some, Option.pure_def]
  split <;> rfl

theorem chunkLen_bounds (h : m.validate = .ok ()) (hi : i < m.chunkCount) :
    1 ≤ (m.chunkLen i).toNat ∧ (m.chunkLen i).toNat ≤ m.chunkSize.toNat ∧
      (i.toNat < m.chunkCount.toNat - 1 → m.chunkLen i = m.chunkSize.toUInt64) := by
  obtain ⟨-, hcount, -, hlo, hhi⟩ := validate_eq_ok_iff.mp h
  have hsplit : m.chunkSize.toNat * m.chunkCount.toNat =
      m.chunkSize.toNat * (m.chunkCount.toNat - 1) + m.chunkSize.toNat := by
    rw [← Nat.mul_succ, Nat.succ_eq_add_one, Nat.sub_add_cancel hcount]
  have hlen := toNat_chunkLen h hi
  rw [hlen]
  refine ⟨?_, ?_, fun hbefore => UInt64.toNat_inj.mp ?_⟩
  · split <;> omega
  · split <;> omega
  · rw [hlen, if_pos (Nat.add_lt_of_lt_sub hbefore)]
    rfl

theorem chunkLens_eq (h : m.validate = .ok ()) :
    m.chunkLens = lengthsOf m.chunkSize.toNat m.chunkCount.toNat m.totalSize.toNat := by
  obtain ⟨-, hcount, -⟩ := validate_eq_ok_iff.mp h
  have hlen : ∀ i < m.chunkCount.toNat, (m.chunkLen (UInt32.ofNat i)).toNat =
      if i + 1 < m.chunkCount.toNat then m.chunkSize.toNat
      else m.totalSize.toNat - m.chunkSize.toNat * (m.chunkCount.toNat - 1) := by
    intro i hi
    have hi32 : (UInt32.ofNat i).toNat = i :=
      UInt32.toNat_ofNat_of_lt' (hi.trans m.chunkCount.toNat_lt)
    have hlt : UInt32.ofNat i < m.chunkCount := by rwa [UInt32.lt_iff_toNat_lt, hi32]
    rw [toNat_chunkLen h hlt, hi32]
  obtain ⟨k, hk⟩ : ∃ k, m.chunkCount.toNat = k + 1 := ⟨_, (Nat.sub_add_cancel hcount).symm⟩
  rw [hk] at hlen
  rw [chunkLens, lengthsOf, hk, Nat.add_sub_cancel, List.range_succ, List.map_append]
  congr 1
  · rw [List.eq_replicate_iff, List.length_map, List.length_range]
    refine ⟨rfl, fun l hl => ?_⟩
    obtain ⟨i, hi, rfl⟩ := List.mem_map.mp hl
    have hik := List.mem_range.mp hi
    rw [hlen i (by omega), if_pos (by omega)]
  · rw [List.map_singleton, hlen k (by omega), if_neg (Nat.lt_irrefl _), Nat.add_sub_cancel]

/-- **The manifest's check pins the lengths of the chunks.** -/
theorem validate_pins_lengths (m : ChunkedPackManifestV1) :
    (m.validate = .ok () ↔
      m.version = 1 ∧ m.chunkHashes.length = m.chunkCount.toNat ∧ 0 < m.chunkCount.toNat ∧
        ∃ lens, ChunkLengths m.chunkSize.toNat m.chunkCount.toNat lens ∧
          lens.sum = m.totalSize.toNat) ∧
    (m.validate = .ok () →
      (∀ i < m.chunkCount, m.chunkLen? i = some (m.chunkLen i) ∧
        1 ≤ (m.chunkLen i).toNat ∧ (m.chunkLen i).toNat ≤ m.chunkSize.toNat ∧
        (i.toNat < m.chunkCount.toNat - 1 → m.chunkLen i = m.chunkSize.toUInt64)) ∧
      m.chunkLens.sum = m.totalSize.toNat) ∧
    m.chunkSize.toUInt64.toNat * m.chunkCount.toUInt64.toNat < 2 ^ 64 ∧
    (m.chunkCount ≠ 0 →
      m.chunkSize.toUInt64.toNat * (m.chunkCount.toUInt64 - 1).toNat < 2 ^ 64) := by
  refine ⟨⟨?_, ?_⟩, fun h => ⟨fun i hi => ⟨chunkLen?_eq h hi, chunkLen_bounds h hi⟩, ?_⟩, ?_, ?_⟩
  · intro h
    obtain ⟨hversion, hcount, hlen, hlo, hhi⟩ := validate_eq_ok_iff.mp h
    exact ⟨hversion, hlen, hcount, _, chunkLengths_lengthsOf hcount hlo hhi⟩
  · rintro ⟨hversion, hlen, hcount, lens, hlens, hsum⟩
    have hbounds := hlens.sum_bounds hcount
    rw [hsum] at hbounds
    exact validate_eq_ok_iff.mpr ⟨hversion, hcount, hlen, hbounds⟩
  · obtain ⟨-, hcount, -, hlo, hhi⟩ := validate_eq_ok_iff.mp h
    rw [chunkLens_eq h]
    exact (chunkLengths_lengthsOf hcount hlo hhi).2
  · exact mul_toUInt64_lt m.chunkSize m.chunkCount
  · intro hcount
    rw [(pred_toUInt64 hcount).1]
    exact mul_toUInt64_lt m.chunkSize (m.chunkCount - 1)

end ChunkedPackManifestV1

/-- Seven bytes in chunks of four. -/
def Sample.sevenBytes : ChunkedPackManifestV1 := ⟨1, 4, 7, 2, [zeros 32, zeros 32]⟩

theorem validate_pins_lengths_sevenBytes :
    Sample.sevenBytes.validate = .ok () ∧ Sample.sevenBytes.chunkLens = [4, 3] ∧
      Sample.sevenBytes.chunkLens.sum = 7 :=
  ⟨rfl, by decide, ((ChunkedPackManifestV1.validate_pins_lengths Sample.sevenBytes).2.1 rfl).2⟩

/-! ## Reading a manifest -/

/-- The number of hashes that the bytes declare: the eight bytes behind the seventeen of the
fields before it. -/
def declaredHashes (bytes : Bytes) : Option Nat :=
  if 25 ≤ bytes.length then some (ofLeBytes ((bytes.drop 17).take 8)) else none

theorem manifestHead_dec (bytes : Bytes) :
    (bincode.manifestHead.dec bytes).map (fun p => p.1.2.2.2.2.1) = declaredHashes bytes := by
  have hlt : ofLeBytes ((bytes.drop 17).take 8) < 2 ^ 64 :=
    (ofLeBytes_lt _).trans_le (Nat.pow_le_pow_right (by omega) (List.length_take_le _ _))
  have hlen : (Codec.len.dec (bytes.drop 17)).map (fun p => p.1.1) = declaredHashes bytes := by
    show (if 8 ≤ (bytes.drop 17).length then some _ else none).map _ = _
    rw [declaredHashes, List.length_drop]
    by_cases h : 25 ≤ bytes.length
    · rw [if_pos h, if_pos (by omega), Option.map_some]
      exact congrArg some (Nat.mod_eq_of_lt hlt)
    · rw [if_neg h, if_neg (by omega), Option.map_none]
  have h4 := Codec.map_dec_pair Codec.width_u32 Codec.len (·.1)
  have h3 := Codec.map_dec_pair Codec.width_u64 (Codec.u32.pair Codec.len) (·.2.1)
  have h2 := Codec.map_dec_pair Codec.width_u32 (Codec.u64.pair (Codec.u32.pair Codec.len)) (·.2.2.1)
  have h1 := Codec.map_dec_pair Codec.width_u8
    (Codec.u32.pair (Codec.u64.pair (Codec.u32.pair Codec.len))) (·.2.2.2.1) bytes
  refine h1.trans ?_
  simp only [h2, h3, h4]
  simp only [List.drop_drop, List.length_drop, hlen, declaredHashes]
  split_ifs <;> first | rfl | omega

theorem withCapacity_iff {grants : Nat → Bool} {n : Nat} : withCapacity grants n = true ↔
    32 * n < 2 ^ 63 ∧ (n = 0 ∨ grants (32 * n) = true) := by
  rw [withCapacity, decide_eq_true_iff]

theorem capacityOverflow_iff {grants : Nat → Bool} {bytes : Bytes} :
    capacityOverflow grants bytes = true ↔
      ∃ n ∈ declaredHashes bytes, ¬ withCapacity grants n = true := by
  rw [← manifestHead_dec, capacityOverflow]
  cases bincode.manifestHead.dec bytes with
  | none => simp
  | some p => simp

theorem fromBytes_panicked_iff {grants : Nat → Bool} {cr : Crypto} {bytes : Bytes} :
    ChunkedPackManifestV1.fromBytesWith grants cr bytes = .error .panicked ↔
      ∃ n ∈ declaredHashes bytes, ¬ withCapacity grants n = true := by
  rw [← capacityOverflow_iff, ChunkedPackManifestV1.fromBytesWith]
  constructor
  · intro h
    by_contra hroom
    rw [if_neg hroom] at h
    cases hread : bincode.manifest.read bytes with
    | none =>
        rw [hread] at h
        cases h
    | some m =>
        rw [hread] at h
        dsimp only at h
        cases hvalid : m.validate with
        | error e =>
            rw [hvalid] at h
            cases h
        | ok _ =>
            rw [hvalid] at h
            cases h
  · exact fun hover => if_pos hover

/-- **A manifest is read or refused, unless it declares more hashes than a vector may hold, or
than the allocator grants.** -/
theorem fromBytes_returns_iff (grants : Nat → Bool) (cr : Crypto) (bytes : Bytes) :
    ((∃ m, ChunkedPackManifestV1.fromBytesWith grants cr bytes = .ok m) ∨
      ∃ e, ChunkedPackManifestV1.fromBytesWith grants cr bytes = .error (.err e)) ↔
      ∀ n ∈ declaredHashes bytes, 32 * n < 2 ^ 63 ∧ (n = 0 ∨ grants (32 * n) = true) := by
  rw [returns_iff, Ne, fromBytes_panicked_iff]
  simp only [withCapacity_iff]
  push Not
  rfl

/-- Twenty-five bytes that declare 2⁵⁸ hashes. -/
def Sample.manyHashes : Bytes := List.replicate 24 0 ++ [4]

/-- Half as many: a vector may have this size, but an address space has no room for it. -/
def Sample.halfAsManyHashes : Bytes := List.replicate 24 0 ++ [2]

/-- The number above panics whatever the allocator does, the half of it with any allocator that
refuses 2⁶² bytes. -/
theorem fromBytes_manyHashes :
    (∀ grants, ChunkedPackManifestV1.fromBytesWith grants Sample.unsigned Sample.manyHashes =
      .error .panicked) ∧
    (∀ grants, grants (2 ^ 62) = false →
      ChunkedPackManifestV1.fromBytesWith grants Sample.unsigned Sample.halfAsManyHashes =
        .error .panicked) ∧
    ∀ grants, ¬ ∀ bytes,
      (∃ m, ChunkedPackManifestV1.fromBytesWith grants Sample.unsigned bytes = .ok m) ∨
      ∃ e, ChunkedPackManifestV1.fromBytesWith grants Sample.unsigned bytes =
        .error (.err e) := by
  have hpanic : ∀ grants, ChunkedPackManifestV1.fromBytesWith grants Sample.unsigned
      Sample.manyHashes = .error .panicked := by
    intro grants
    refine fromBytes_panicked_iff.mpr ⟨2 ^ 58, rfl, fun h => ?_⟩
    exact absurd (withCapacity_iff.mp h).1 (by decide)
  refine ⟨hpanic, fun grants hrefused => ?_, fun grants h => ?_⟩
  · refine fromBytes_panicked_iff.mpr ⟨2 ^ 57, rfl, fun h => ?_⟩
    rcases (withCapacity_iff.mp h).2 with hzero | hgranted
    · exact absurd hzero (by decide)
    · exact absurd (hrefused.symm.trans hgranted) Bool.false_ne_true
  · exact returns_iff.mp (h Sample.manyHashes) (hpanic grants)

end FreenetGit
