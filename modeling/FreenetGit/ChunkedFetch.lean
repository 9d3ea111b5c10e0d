/-
# `FreenetGit.ChunkedFetch` — fetching a chunked pack

`fetch_chunked_pack_with_progress` reads the manifest, checks it against the entry of
the object index, reads the chunks in whatever order they arrive, and puts them
together in the order of the manifest.  Every read is checked against its hash, so
that what was published comes back or nothing does (`chunked_roundTrip`).
-/
import FreenetGit.Legacy

namespace FreenetGit

open Lib

/-! ## One pack -/

/-- What one `get_pack` meets: the pack cache, and what `get_state` returns. -/
structure PackGet where
  cache : PackCache
  answer : GetResult

/-- What the fetcher returned, with its hash checked. -/
def checkFetched (cr : Crypto) (packHash : PackHash) : GetResult → Except String Bytes
  | .error e => .error e
  | .ok bytes =>
      if cr.blake3 bytes ≠ packHash then
        .error ("pack content hash mismatch: got " ++ hexEncode (cr.blake3 bytes).toList ++
          " expected " ++ hexEncode packHash.toList)
      else .ok bytes

/-- `get_pack_with_fetcher`: the hash of what the cache returns is checked again. -/
def getPack (cr : Crypto) (get : PackGet) (packHash : PackHash) : Except String Bytes :=
  match get.cache.read cr packHash with
  | some bytes =>
      if cr.blake3 bytes = packHash then .ok bytes else checkFetched cr packHash get.answer
  | none => checkFetched cr packHash get.answer

/-! ## The chunks -/

/-- What the manifest reader has read when it makes room for the hashes: the fields
before them and their number. -/
def bincode.manifestHead : Codec (UInt8 × UInt32 × UInt64 × UInt32 × { n : Nat // n < 2 ^ 64 }) :=
  Codec.u8.pair (Codec.u32.pair (Codec.u64.pair (Codec.u32.pair Codec.len)))

/-- Whether `Vec::with_capacity` returns for `n` hashes.  It panics when they would take more
than `isize::MAX` bytes, and aborts the process when the allocator does not grant their bytes;
for none it does not ask. -/
def withCapacity (grants : Nat → Bool) (n : Nat) : Bool :=
  32 * n < 2 ^ 63 ∧ (n = 0 ∨ grants (32 * n))

/-- The reader makes room for the hashes before it reads the first of them. -/
def capacityOverflow (grants : Nat → Bool) (bytes : Bytes) : Bool :=
  match bincode.manifestHead.dec bytes with
  | some ((_, _, _, _, n), _) => !withCapacity grants n.1
  | none => false

namespace ChunkedPackManifestV1

/-- `ChunkedPackManifestV1::from_bytes`, with an allocator that grants these numbers of bytes. -/
def fromBytesWith (grants : Nat → Bool) (cr : Crypto) (bytes : Bytes) :
    Outcome ManifestError ChunkedPackManifestV1 :=
  if capacityOverflow grants bytes then .error .panicked
  else
    match bincode.manifest.read bytes with
    | none => .error (.err (.decode (cr.bincodeError bytes)))
    | some m =>
        match m.validate with
        | .error e => .error (.err e)
        | .ok () => .ok m

/-- `ChunkedPackManifestV1::from_bytes`, where memory does not run out. -/
def fromBytes (cr : Crypto) (bytes : Bytes) : Outcome ManifestError ChunkedPackManifestV1 :=
  fromBytesWith (fun _ => true) cr bytes

/-- `ChunkedPackManifestV1::chunk_len`. -/
def chunkLen (m : ChunkedPackManifestV1) (i : UInt32) : UInt64 :=
  if i + 1 < m.chunkCount then m.chunkSize.toUInt64
  else m.totalSize - m.chunkSize.toUInt64 * (m.chunkCount - 1).toUInt64

end ChunkedPackManifestV1

/-- One task of the stream of chunks. -/
def fetchChunk (cr : Crypto) (m : ChunkedPackManifestV1) (get : PackGet) (i : Nat)
    (expectedHash : PackHash) : Outcome (List String) (Nat × Bytes) :=
  match getPack cr get expectedHash with
  | .error e => .error (.err ["GET chunk " ++ toString i, e])
  | .ok chunk =>
      let expectedLen := m.chunkLen (UInt32.ofNat i)
      if UInt64.ofNat chunk.length ≠ expectedLen then
        .error (.err ["chunk " ++ toString i ++ " length " ++ toString chunk.length ++
          " disagrees with manifest expectation " ++ toString expectedLen])
      else .ok (i, chunk)

/-- The loop of `collect_chunks_into_slots`. -/
def collectFrom {ε : Type} : List (Option Bytes) → List (Outcome ε (Nat × Bytes)) →
    Outcome ε (List (Option Bytes))
  | received, [] => .ok received
  | received, result :: stream => do
      let (i, chunk) ← result
      if i < received.length then collectFrom (received.set i (some chunk)) stream
      else .error .panicked

/-- `collect_chunks_into_slots`. -/
def collectChunksIntoSlots {ε : Type} (stream : List (Outcome ε (Nat × Bytes))) (n : UInt32) :
    Outcome ε (List (Option Bytes)) :=
  collectFrom (List.replicate n.toNat none) stream

/-- The loop of `assemble_chunks`. -/
def assembleFrom : Nat → Bytes → List (Option Bytes) → Outcome (List String) Bytes
  | _, assembled, [] => .ok assembled
  | i, _, none :: _ => .error (.err ["chunk " ++ toString i ++ " missing during reassembly"])
  | i, assembled, some chunk :: received => assembleFrom (i + 1) (assembled ++ chunk) received

/-- `assemble_chunks`. -/
def assembleChunks (received : List (Option Bytes)) (expectedTotalSize : UInt64) :
    Outcome (List String) Bytes := do
  let assembled ← assembleFrom 0 [] received
  if UInt64.ofNat assembled.length ≠ expectedTotalSize then
    .error (.err ["assembled length " ++ toString assembled.length ++
      " disagrees with manifest total_size " ++ toString expectedTotalSize])
  else .ok assembled

/-! ## The fetch -/

/-- What a fetch meets: the pool of connections or why there is none, what the GETs
meet, and the order in which the GETs of the chunks complete. -/
structure ChunkedFetchEnv where
  pool : Except String Unit
  manifestGet : PackGet
  chunkGet : Nat → PackGet
  order : List Nat

/-- `fetch_chunked_pack_with_progress`. -/
def fetchChunkedPack (cr : Crypto) (env : ChunkedFetchEnv) (manifestHash : ManifestHash)
    (expectedTotalSize : UInt64) (expectedChunkCount : UInt32) (parallelism : Nat) :
    Outcome (List String) Bytes :=
  if parallelism = 0 then .error (.err ["fetch_chunked_pack: zero parallelism"])
  else
    match env.pool, getPack cr env.manifestGet manifestHash with
    | .error e, _ => .error (.err [e])
    | .ok (), .error e => .error (.err ["GET manifest", e])
    | .ok (), .ok manifestBytes =>
        match ChunkedPackManifestV1.fromBytes cr manifestBytes with
        | .error .panicked => .error .panicked
        | .error (.err e) => .error (.err ["decode manifest", e.display])
        | .ok manifest =>
            if manifest.totalSize ≠ expectedTotalSize then
              .error (.err ["object_index entry total_size " ++ toString expectedTotalSize ++
                " disagrees with manifest " ++ toString manifest.totalSize])
            else if manifest.chunkCount ≠ expectedChunkCount then
              .error (.err ["object_index entry chunk_count " ++ toString expectedChunkCount ++
                " disagrees with manifest " ++ toString manifest.chunkCount])
            else do
              let stream := env.order.filterMap fun i =>
                manifest.chunkHashes[i]?.map fun hash =>
                  fetchChunk cr manifest (env.chunkGet i) i hash
              let received ← collectChunksIntoSlots stream manifest.chunkCount
              assembleChunks received manifest.totalSize

/-! ## The manifest of a pack -/

theorem pos_of_ne_zero {chunkSize : UInt32} (h : chunkSize ≠ 0) : 0 < chunkSize.toNat :=
  Nat.pos_of_ne_zero fun h0 => h (UInt32.toNat_inj.mp h0)

/-- The last chunk is not empty. -/
theorem chunkTotal_pred_mul_lt {len c : Nat} (hlen : 0 < len) :
    (chunkTotal len c - 1) * c < len := by
  have hdiv := Nat.div_add_mod len c
  have hcomm := Nat.mul_comm (len / c) c
  rw [chunkTotal]
  split
  · next h0 =>
      rcases Nat.eq_zero_or_pos c with rfl | hc
      · rwa [Nat.mul_zero]
      · have hpred : (len / c + 0 - 1) * c = len / c * c - c := by
          rw [Nat.add_zero, Nat.sub_mul, Nat.one_mul]
        omega
  · rw [Nat.add_sub_cancel]
    omega

theorem chunkTotal_pos {len c : Nat} (hlen : 0 < len) (hc : 0 < c) : 0 < chunkTotal len c := by
  rcases Nat.eq_zero_or_pos (chunkTotal len c) with h | h
  · have := @le_chunkTotal_mul len c hc
    rw [h, Nat.zero_mul] at this
    omega
  · exact h

theorem length_splitPack (pack : Bytes) (chunkSize : UInt32) :
    (splitPack pack chunkSize).length = chunkTotal pack.length chunkSize.toNat := by
  rw [splitPack, List.length_map, List.length_range]

theorem getElem?_splitPack {pack : Bytes} {chunkSize : UInt32} {i : Nat} {chunk : Bytes}
    (h : (splitPack pack chunkSize)[i]? = some chunk) :
    i < chunkTotal pack.length chunkSize.toNat ∧
      chunk.length = min chunkSize.toNat (pack.length - i * chunkSize.toNat) := by
  rw [splitPack, List.getElem?_map, Option.map_eq_some_iff] at h
  obtain ⟨j, hj, rfl⟩ := h
  obtain ⟨hlt, rfl⟩ := List.getElem?_eq_some_iff.mp hj
  rw [List.length_range] at hlt
  rw [List.getElem_range, List.length_take, List.length_drop]
  exact ⟨hlt, rfl⟩

namespace ChunkedPackManifestV1

variable {m : ChunkedPackManifestV1} {i : UInt32}

theorem toNat_succ_of_lt (hi : i < m.chunkCount) : (i + 1).toNat = i.toNat + 1 := by
  have hlt : i.toNat + 1 < 2 ^ 32 :=
    Nat.lt_of_le_of_lt (UInt32.lt_iff_toNat_lt.mp hi) m.chunkCount.toNat_lt
  rw [UInt32.toNat_add]
  exact Nat.mod_eq_of_lt hlt

/-- What the chunks before the last one hold fits in the pack. -/
theorem before_last_le (h : m.validate = .ok ()) :
    m.chunkSize.toUInt64 * (m.chunkCount - 1).toUInt64 ≤ m.totalSize ∧
      (m.chunkSize.toUInt64 * (m.chunkCount - 1).toUInt64).toNat =
        m.chunkSize.toNat * (m.chunkCount.toNat - 1) := by
  obtain ⟨-, hcount, -, hlo, -⟩ := validate_eq_ok_iff.mp h
  have hcount0 : m.chunkCount ≠ 0 := fun h0 => hcount.ne' (by rw [h0]; rfl)
  have hprod := (checkedMul_toUInt64 m.chunkSize (m.chunkCount - 1)).2
  rw [(pred_toUInt64 hcount0).2] at hprod
  refine ⟨?_, hprod⟩
  rw [UInt64.le_iff_toNat_le, hprod]
  exact hlo.le

theorem toNat_chunkLen (h : m.validate = .ok ()) (hi : i < m.chunkCount) :
    (m.chunkLen i).toNat = if i.toNat + 1 < m.chunkCount.toNat then m.chunkSize.toNat
      else m.totalSize.toNat - m.chunkSize.toNat * (m.chunkCount.toNat - 1) := by
  obtain ⟨hle, hprod⟩ := before_last_le h
  have hlt : i + 1 < m.chunkCount ↔ i.toNat + 1 < m.chunkCount.toNat := by
    rw [UInt32.lt_iff_toNat_lt, toNat_succ_of_lt hi]
  rw [chunkLen]
  by_cases hmore : i + 1 < m.chunkCount
  · rw [if_pos hmore, if_pos (hlt.mp hmore)]
    rfl
  · rw [if_neg hmore, if_neg (mt hlt.mpr hmore), UInt64.toNat_sub_of_le _ _ hle, hprod]

end ChunkedPackManifestV1

theorem sum_lengths : ∀ chunks : List Bytes,
    (chunks.map fun c => UInt64.ofNat c.length).sum = UInt64.ofNat chunks.flatten.length
  | [] => rfl
  | c :: chunks => by
      rw [List.map_cons, List.sum_cons, sum_lengths chunks, List.flatten_cons, List.length_append,
        UInt64.ofNat_add]

/-- A pack that can be published in chunks of this size. -/
structure Chunkable (pack : Bytes) (chunkSize : UInt32) : Prop where
  nonempty : pack ≠ []
  positive : chunkSize ≠ 0
  count : chunkTotal pack.length chunkSize.toNat < 2 ^ 32

/-- The manifest of a pack. -/
def manifestOf (cr : Crypto) (pack : Bytes) (chunkSize : UInt32) : ChunkedPackManifestV1 where
  version := 1
  chunkSize := chunkSize
  totalSize := UInt64.ofNat pack.length
  chunkCount := UInt32.ofNat (chunkTotal pack.length chunkSize.toNat)
  chunkHashes := (splitPack pack chunkSize).map cr.blake3

namespace Chunkable

variable {pack : Bytes} {chunkSize : UInt32} {cr : Crypto}

theorem length_pos (h : Chunkable pack chunkSize) : 0 < pack.length :=
  List.length_pos_iff.mpr h.nonempty

theorem total_pos (h : Chunkable pack chunkSize) : 0 < chunkTotal pack.length chunkSize.toNat :=
  chunkTotal_pos h.length_pos (pos_of_ne_zero h.positive)

theorem length_le (h : Chunkable pack chunkSize) :
    pack.length ≤ chunkSize.toNat * chunkTotal pack.length chunkSize.toNat := by
  rw [Nat.mul_comm]
  exact le_chunkTotal_mul (pos_of_ne_zero h.positive)

theorem lt_length (h : Chunkable pack chunkSize) :
    chunkSize.toNat * (chunkTotal pack.length chunkSize.toNat - 1) < pack.length := by
  rw [Nat.mul_comm]
  exact chunkTotal_pred_mul_lt h.length_pos

theorem mul_lt (h : Chunkable pack chunkSize) :
    chunkSize.toNat * chunkTotal pack.length chunkSize.toNat < 2 ^ 64 := by
  calc chunkSize.toNat * chunkTotal pack.length chunkSize.toNat
      < 2 ^ 32 * 2 ^ 32 := Nat.mul_lt_mul'' (UInt32.toNat_lt _) h.count
    _ = 2 ^ 64 := rfl

theorem length_lt (h : Chunkable pack chunkSize) : pack.length < 2 ^ 64 :=
  h.length_le.trans_lt h.mul_lt

theorem fromChunks_eq {ε : Type} (h : Chunkable pack chunkSize) (cr : Crypto) :
    ChunkedPackManifestV1.fromChunks (ε := ε) cr chunkSize (splitPack pack chunkSize) =
      .ok (manifestOf cr pack chunkSize) := by
  rw [ChunkedPackManifestV1.fromChunks, sum_lengths, flatten_splitPack h.positive,
    length_splitPack, if_pos h.count]
  rfl

theorem toNat_totalSize (h : Chunkable pack chunkSize) (cr : Crypto) :
    (manifestOf cr pack chunkSize).totalSize.toNat = pack.length :=
  UInt64.toNat_ofNat_of_lt' h.length_lt

theorem toNat_chunkCount (h : Chunkable pack chunkSize) (cr : Crypto) :
    (manifestOf cr pack chunkSize).chunkCount.toNat = chunkTotal pack.length chunkSize.toNat :=
  UInt32.toNat_ofNat_of_lt' h.count

/-- **The manifest of a pack passes its own check.** -/
theorem validate_manifestOf (h : Chunkable pack chunkSize) :
    (manifestOf cr pack chunkSize).validate = .ok () := by
  have hlen : (manifestOf cr pack chunkSize).chunkHashes.length =
      chunkTotal pack.length chunkSize.toNat :=
    (List.length_map cr.blake3).trans (length_splitPack pack chunkSize)
  rw [ChunkedPackManifestV1.validate_eq_ok_iff, h.toNat_chunkCount, h.toNat_totalSize]
  exact ⟨rfl, h.total_pos, hlen, h.lt_length, h.length_le⟩

/-- The manifest gives each chunk the length it has. -/
theorem chunkLen_manifestOf (h : Chunkable pack chunkSize) {i : Nat} {chunk : Bytes}
    (hi : (splitPack pack chunkSize)[i]? = some chunk) :
    (manifestOf cr pack chunkSize).chunkLen (UInt32.ofNat i) = UInt64.ofNat chunk.length := by
  obtain ⟨hlt, hlen⟩ := getElem?_splitPack hi
  have hlast := h.lt_length
  have hle := h.length_le
  have hlen64 : chunk.length < 2 ^ 64 := by
    have := h.length_lt
    omega
  have hi32 : (UInt32.ofNat i).toNat = i := UInt32.toNat_ofNat_of_lt' (hlt.trans h.count)
  have hicount : UInt32.ofNat i < (manifestOf cr pack chunkSize).chunkCount := by
    rwa [UInt32.lt_iff_toNat_lt, hi32, h.toNat_chunkCount]
  apply UInt64.toNat_inj.mp
  rw [ChunkedPackManifestV1.toNat_chunkLen h.validate_manifestOf hicount, hi32,
    h.toNat_chunkCount, h.toNat_totalSize, UInt64.toNat_ofNat_of_lt' hlen64, hlen]
  split
  · next hmore =>
      -- a chunk before the last one is full
      have hfull : (i + 1) * chunkSize.toNat ≤
          (chunkTotal pack.length chunkSize.toNat - 1) * chunkSize.toNat :=
        Nat.mul_le_mul_right _ (by omega)
      rw [Nat.succ_mul, Nat.mul_comm (_ - 1)] at hfull
      change chunkSize.toNat = _
      omega
  · next hmore =>
      obtain rfl : i = chunkTotal pack.length chunkSize.toNat - 1 := by omega
      have hsplit : chunkSize.toNat * chunkTotal pack.length chunkSize.toNat =
          chunkSize.toNat * (chunkTotal pack.length chunkSize.toNat - 1) + chunkSize.toNat := by
        rw [← Nat.mul_succ, Nat.succ_eq_add_one, Nat.sub_add_cancel h.total_pos]
      have hsize : (manifestOf cr pack chunkSize).chunkSize = chunkSize := rfl
      rw [hsize, Nat.mul_comm (_ - 1)]
      omega

theorem not_capacityOverflow (h : Chunkable pack chunkSize) {bytes : Bytes}
    (hbytes : (manifestOf cr pack chunkSize).toBytes = some bytes) :
    capacityOverflow (fun _ => true) bytes = false := by
  have hlen : (manifestOf cr pack chunkSize).chunkHashes.length < 2 ^ 32 := by
    have hcount := h.count
    rw [← length_splitPack] at hcount
    exact (List.length_map cr.blake3).trans_lt hcount
  have hlen64 : (manifestOf cr pack chunkSize).chunkHashes.length < 2 ^ 64 := by omega
  obtain ⟨rest, hrest⟩ := ((((Codec.startsWith_list (.arrayBlob 32) hlen64).pair Codec.u32 _).pair
    Codec.u64 _).pair Codec.u32 _).pair Codec.u8 _ bytes hbytes
  rw [capacityOverflow, bincode.manifestHead, hrest]
  dsimp only
  rw [Bool.not_eq_false', withCapacity, decide_eq_true_iff]
  exact ⟨by omega, .inr rfl⟩

/-- **The manifest of a pack is read back.** -/
theorem fromBytes_manifestOf (h : Chunkable pack chunkSize) {bytes : Bytes}
    (hbytes : (manifestOf cr pack chunkSize).toBytes = some bytes) :
    ChunkedPackManifestV1.fromBytes cr bytes = .ok (manifestOf cr pack chunkSize) := by
  rw [ChunkedPackManifestV1.fromBytes, ChunkedPackManifestV1.fromBytesWith,
    if_neg (by rw [h.not_capacityOverflow hbytes]; decide), bincode.manifest.read_enc hbytes]
  dsimp only
  rw [h.validate_manifestOf]

end Chunkable

/-! ## The chunks come back -/

/-- The bytes that a read of a pack may return: what is in the cache, and what the host
sends. -/
def PackGet.offered (get : PackGet) : Set Bytes :=
  {bytes | (∃ files hash, get.cache = some files ∧ files hash = some bytes) ∨
    get.answer = .ok bytes}

theorem of_checkFetched {cr : Crypto} {hash : PackHash} {answer : GetResult} {bytes : Bytes}
    (h : checkFetched cr hash answer = .ok bytes) : answer = .ok bytes ∧ cr.blake3 bytes = hash := by
  cases answer with
  | error e => cases h
  | ok b =>
      rw [checkFetched] at h
      split at h
      · cases h
      · next heq =>
          cases h
          exact ⟨rfl, not_not.mp heq⟩

/-- A read of a pack that succeeds returns offered bytes of the hash. -/
theorem of_getPack {cr : Crypto} {get : PackGet} {hash : PackHash} {bytes : Bytes}
    (h : getPack cr get hash = .ok bytes) : bytes ∈ get.offered ∧ cr.blake3 bytes = hash := by
  rw [getPack] at h
  split at h
  · next b hread =>
      split at h
      · next heq =>
          cases h
          obtain ⟨files, hfiles, hfile⟩ := Option.bind_eq_some_iff.mp hread
          exact ⟨.inl ⟨files, hash, hfiles, (Option.filter_eq_some_iff.mp hfile).1⟩, heq⟩
      · exact (of_checkFetched h).imp_left .inr
  · exact (of_checkFetched h).imp_left .inr

/-- Without collisions a read returns what was stored, or fails. -/
theorem getPack_stored {cr : Crypto} {S : Set Bytes} (hcr : S.InjOn cr.blake3) {get : PackGet}
    (hget : get.offered ⊆ S) {stored bytes : Bytes} (hs : stored ∈ S)
    (h : getPack cr get (cr.blake3 stored) = .ok bytes) : bytes = stored := by
  obtain ⟨hoffered, heq⟩ := of_getPack h
  exact hcr (hget hoffered) hs heq

section

variable {ε : Type}

/-- The chunks of a stream that all arrived are in their slots, whatever their order. -/
theorem collectFrom_ok (f : Nat → Bytes) : ∀ (order : List Nat) (received : List (Option Bytes)),
    (∀ i ∈ order, i < received.length) →
    ∃ received', collectFrom (ε := ε) received (order.map fun i => .ok (i, f i)) = .ok received' ∧
      received'.length = received.length ∧
      ∀ j < received.length, received'[j]? = if j ∈ order then some (some (f j)) else received[j]?
  | [], received, _ => ⟨received, rfl, rfl, fun j _ => by simp⟩
  | i :: order, received, h => by
      have hi : i < received.length := h i List.mem_cons_self
      obtain ⟨received', hcollect, hlen, hslots⟩ :=
        collectFrom_ok f order (received.set i (some (f i))) fun j hj => by
          rw [List.length_set]
          exact h j (List.mem_cons_of_mem _ hj)
      refine ⟨received', ?_, hlen.trans List.length_set, fun j hj => ?_⟩
      · rw [List.map_cons, collectFrom]
        exact (if_pos hi).trans hcollect
      · rw [hslots j (by rwa [List.length_set]), List.getElem?_set]
        by_cases hmem : j ∈ order
        · rw [if_pos hmem, if_pos (List.mem_cons_of_mem _ hmem)]
        · rw [if_neg hmem]
          by_cases hij : i = j
          · subst hij
            rw [if_pos rfl, if_pos hi, if_pos List.mem_cons_self]
          · rw [if_neg hij, if_neg fun hm => (List.mem_cons.mp hm).elim (fun e => hij e.symm) hmem]

/-- A stream with an error ends in an error. -/
theorem collectFrom_err : ∀ (stream : List (Outcome ε (Nat × Bytes)))
    (received : List (Option Bytes)),
    (∀ r ∈ stream, (∃ e, r = .error (.err e)) ∨ ∃ p, r = .ok p ∧ p.1 < received.length) →
    (∃ e, .error (.err e) ∈ stream) → ∃ e, collectFrom received stream = .error (.err e)
  | [], _, _, h => nomatch h
  | r :: stream, received, hall, ⟨e, he⟩ => by
      rcases hall r List.mem_cons_self with ⟨e', rfl⟩ | ⟨⟨i, chunk⟩, rfl, hi⟩
      · exact ⟨e', rfl⟩
      · have he : .error (.err e) ∈ stream := (List.mem_cons.mp he).resolve_left nofun
        obtain ⟨e', he'⟩ := collectFrom_err stream (received.set i (some chunk))
          (fun r hr => by
            rw [List.length_set]
            exact hall r (List.mem_cons_of_mem _ hr)) ⟨e, he⟩
        refine ⟨e', ?_⟩
        rw [collectFrom]
        exact (if_pos hi).trans he'

theorem assembleFrom_some : ∀ (chunks : List Bytes) (i : Nat) (assembled : Bytes),
    assembleFrom i assembled (chunks.map some) = .ok (assembled ++ chunks.flatten)
  | [], _, assembled => by
      rw [List.map_nil, assembleFrom, List.flatten_nil, List.append_nil]
  | chunk :: chunks, i, assembled => by
      rw [List.map_cons, assembleFrom, assembleFrom_some chunks, List.flatten_cons,
        List.append_assoc]

end

/-- A chunk as it was cut. -/
def chunkAt (pack : Bytes) (chunkSize : UInt32) (i : Nat) : Bytes :=
  ((splitPack pack chunkSize)[i]?).getD []

theorem getElem?_chunkAt {pack : Bytes} {chunkSize : UInt32} {i : Nat}
    (hi : i < chunkTotal pack.length chunkSize.toNat) :
    (splitPack pack chunkSize)[i]? = some (chunkAt pack chunkSize i) := by
  rw [← length_splitPack] at hi
  rw [chunkAt, List.getElem?_eq_getElem hi, Option.getD_some]

/-- The contents that a publish stores. -/
def PublishPlan.stored (plan : PublishPlan) : Set Bytes :=
  {bytes | bytes ∈ plan.chunks ∨ bytes = plan.manifestBytes}

/-- The bytes that the reads of a fetch may return. -/
def ChunkedFetchEnv.offered (env : ChunkedFetchEnv) : Set Bytes :=
  {bytes | bytes ∈ env.manifestGet.offered ∨ ∃ i, bytes ∈ (env.chunkGet i).offered}

namespace Chunkable

variable {pack : Bytes} {chunkSize : UInt32} {cr : Crypto}

/-- A task returns its chunk or an error. -/
theorem fetchChunk_cases (h : Chunkable pack chunkSize) {S : Set Bytes} (hcr : S.InjOn cr.blake3)
    {get : PackGet} (hget : get.offered ⊆ S) {i : Nat}
    (hi : i < chunkTotal pack.length chunkSize.toNat) (hs : chunkAt pack chunkSize i ∈ S) :
    (∃ e, fetchChunk cr (manifestOf cr pack chunkSize) get i (cr.blake3 (chunkAt pack chunkSize i)) =
        .error (.err e) ∧ ∃ e', getPack cr get (cr.blake3 (chunkAt pack chunkSize i)) = .error e') ∨
      fetchChunk cr (manifestOf cr pack chunkSize) get i (cr.blake3 (chunkAt pack chunkSize i)) =
        .ok (i, chunkAt pack chunkSize i) := by
  rw [fetchChunk]
  cases hgot : getPack cr get (cr.blake3 (chunkAt pack chunkSize i)) with
  | error e => exact .inl ⟨_, rfl, e, rfl⟩
  | ok chunk =>
      cases getPack_stored hcr hget hs hgot
      refine .inr ?_
      dsimp only
      rw [h.chunkLen_manifestOf (getElem?_chunkAt hi)]
      exact if_neg (not_not_intro rfl)

/-- The slots of a stream that all arrived make up the pack. -/
theorem assemble_chunks {ε : Type} (h : Chunkable pack chunkSize) {order : List Nat}
    (horder : order.Perm (List.range (chunkTotal pack.length chunkSize.toNat))) :
    collectChunksIntoSlots (ε := ε) (order.map fun i => .ok (i, chunkAt pack chunkSize i))
        (manifestOf cr pack chunkSize).chunkCount =
      .ok ((splitPack pack chunkSize).map some) := by
  have hmem : ∀ {j}, j ∈ order ↔ j < chunkTotal pack.length chunkSize.toNat := fun {j} =>
    horder.mem_iff.trans List.mem_range
  rw [collectChunksIntoSlots, h.toNat_chunkCount]
  obtain ⟨received, hcollect, hlen, hslots⟩ := collectFrom_ok (ε := ε) (chunkAt pack chunkSize) order
    (List.replicate (chunkTotal pack.length chunkSize.toNat) none) fun i hi => by
      rw [List.length_replicate]
      exact hmem.mp hi
  rw [List.length_replicate] at hlen hslots
  rw [hcollect]
  refine congrArg _ (List.ext_getElem? fun j => ?_)
  by_cases hj : j < chunkTotal pack.length chunkSize.toNat
  · rw [hslots j hj, if_pos (hmem.mpr hj), List.getElem?_map, getElem?_chunkAt hj]
    rfl
  · rw [List.getElem?_eq_none (by omega), List.getElem?_eq_none]
    rw [List.length_map, length_splitPack]
    omega

/-- The stream of the tasks, in the order in which they complete. -/
theorem stream_eq (env : ChunkedFetchEnv)
    (horder : ∀ i ∈ env.order, i < chunkTotal pack.length chunkSize.toNat) :
    (env.order.filterMap fun i => (manifestOf cr pack chunkSize).chunkHashes[i]?.map fun hash =>
        fetchChunk cr (manifestOf cr pack chunkSize) (env.chunkGet i) i hash) =
      env.order.map fun i => fetchChunk cr (manifestOf cr pack chunkSize) (env.chunkGet i) i
        (cr.blake3 (chunkAt pack chunkSize i)) := by
  rw [← List.filterMap_eq_map]
  refine List.filterMap_congr fun i hi => ?_
  have hhash : (manifestOf cr pack chunkSize).chunkHashes[i]? =
      some (cr.blake3 (chunkAt pack chunkSize i)) := by
    rw [manifestOf, List.getElem?_map, getElem?_chunkAt (horder i hi)]
    rfl
  rw [hhash]
  rfl

/-- **The chunks come back**, in any order: all of them, or an error. -/
theorem fetchChunks (h : Chunkable pack chunkSize) {S : Set Bytes} (hcr : S.InjOn cr.blake3)
    (env : ChunkedFetchEnv) (hget : ∀ i, (env.chunkGet i).offered ⊆ S)
    (hs : ∀ i < chunkTotal pack.length chunkSize.toNat, chunkAt pack chunkSize i ∈ S)
    (horder : env.order.Perm (List.range (chunkTotal pack.length chunkSize.toNat))) :
    let stream := env.order.filterMap fun i =>
      (manifestOf cr pack chunkSize).chunkHashes[i]?.map fun hash =>
        fetchChunk cr (manifestOf cr pack chunkSize) (env.chunkGet i) i hash
    let result := collectChunksIntoSlots stream (manifestOf cr pack chunkSize).chunkCount >>=
      fun received => assembleChunks received (manifestOf cr pack chunkSize).totalSize
    result = .ok pack ∨ (∃ e, result = .error (.err e)) ∧
      ∃ i e, i < chunkTotal pack.length chunkSize.toNat ∧
        getPack cr (env.chunkGet i) (cr.blake3 (chunkAt pack chunkSize i)) = .error e := by
  have hmem : ∀ i ∈ env.order, i < chunkTotal pack.length chunkSize.toNat := fun i hi =>
    List.mem_range.mp (horder.mem_iff.mp hi)
  have hcases := fun i (hi : i ∈ env.order) =>
    h.fetchChunk_cases hcr (hget i) (hmem i hi) (hs i (hmem i hi))
  rw [stream_eq env hmem]
  by_cases hall : ∀ i ∈ env.order, fetchChunk cr (manifestOf cr pack chunkSize) (env.chunkGet i) i
      (cr.blake3 (chunkAt pack chunkSize i)) = .ok (i, chunkAt pack chunkSize i)
  · left
    rw [List.map_congr_left hall, h.assemble_chunks horder]
    change assembleChunks _ _ = _
    rw [assembleChunks, assembleFrom_some, List.nil_append, flatten_splitPack h.positive]
    exact if_neg (not_not_intro rfl)
  · right
    simp only [not_forall] at hall
    obtain ⟨i, hi, hne⟩ := hall
    obtain ⟨e, he, e', he'⟩ := (hcases i hi).resolve_right hne
    obtain ⟨e₁, he₁⟩ := collectFrom_err (env.order.map fun i =>
        fetchChunk cr (manifestOf cr pack chunkSize) (env.chunkGet i) i
          (cr.blake3 (chunkAt pack chunkSize i)))
      (List.replicate (manifestOf cr pack chunkSize).chunkCount.toNat none)
      (fun r hr => by
        obtain ⟨j, hj, rfl⟩ := List.mem_map.mp hr
        rw [List.length_replicate, h.toNat_chunkCount]
        exact (hcases j hj).imp (fun ⟨e, he, _⟩ => ⟨e, he⟩) fun hok => ⟨_, hok, hmem j hj⟩)
      ⟨e, he ▸ List.mem_map_of_mem hi⟩
    refine ⟨⟨e₁, ?_⟩, i, e', hmem i hi, he'⟩
    rw [collectChunksIntoSlots, he₁]
    rfl

theorem publishPlan_eq (h : Chunkable pack chunkSize) (cr : Crypto) {parallelism : Nat} (hp : parallelism ≠ 0) :
    ∃ bytes, (manifestOf cr pack chunkSize).toBytes = some bytes ∧
      publishPlan cr pack chunkSize parallelism =
        .ok ⟨splitPack pack chunkSize, manifestOf cr pack chunkSize, bytes⟩ := by
  obtain ⟨bytes, hbytes⟩ :=
    ChunkedPackManifestV1.exists_toBytes (h.fromChunks_eq (ε := List String) cr)
  refine ⟨bytes, hbytes, ?_⟩
  have hne : ¬ pack.isEmpty = true := fun he => h.nonempty (List.isEmpty_iff.mp he)
  rw [publishPlan, if_neg hne, if_neg h.positive, if_neg hp]
  refine bind_eq_ok.mpr ⟨_, h.fromChunks_eq cr, ?_⟩
  rw [h.validate_manifestOf, hbytes]

/-- A fetch returns the pack, or one of the reads has failed. -/
theorem fetch_cases (h : Chunkable pack chunkSize) {S : Set Bytes} (hcr : S.InjOn cr.blake3)
    {env : ChunkedFetchEnv} (hoffered : env.offered ⊆ S) {bytes : Bytes}
    (hbytes : (manifestOf cr pack chunkSize).toBytes = some bytes) (hs : bytes ∈ S)
    (hchunks : ∀ i < chunkTotal pack.length chunkSize.toNat, chunkAt pack chunkSize i ∈ S)
    (horder : env.order.Perm (List.range (chunkTotal pack.length chunkSize.toNat)))
    (parallelism : Nat) :
    let result := fetchChunkedPack cr env (cr.blake3 bytes) (manifestOf cr pack chunkSize).totalSize
      (manifestOf cr pack chunkSize).chunkCount parallelism
    result = .ok pack ∨ (∃ e, result = .error (.err e)) ∧
      (parallelism = 0 ∨ (∃ e, env.pool = .error e) ∨
        (∃ e, getPack cr env.manifestGet (cr.blake3 bytes) = .error e) ∨
        ∃ i e, i < chunkTotal pack.length chunkSize.toNat ∧
          getPack cr (env.chunkGet i) (cr.blake3 (chunkAt pack chunkSize i)) = .error e) := by
  dsimp only
  rw [fetchChunkedPack]
  split
  · next hp => exact .inr ⟨⟨_, rfl⟩, .inl hp⟩
  · cases hpool : env.pool with
    | error e => exact .inr ⟨⟨_, rfl⟩, .inr (.inl ⟨e, rfl⟩)⟩
    | ok u =>
        cases hgot : getPack cr env.manifestGet (cr.blake3 bytes) with
        | error e => exact .inr ⟨⟨_, rfl⟩, .inr (.inr (.inl ⟨e, rfl⟩))⟩
        | ok got =>
            cases getPack_stored hcr (fun b hb => hoffered (.inl hb)) hs hgot
            dsimp only
            rw [h.fromBytes_manifestOf hbytes]
            dsimp only
            rw [if_neg (not_not_intro rfl), if_neg (not_not_intro rfl)]
            rcases h.fetchChunks hcr env (fun i b hb => hoffered (.inr ⟨i, hb⟩)) hchunks horder with
              hok | ⟨herr, hfail⟩
            · exact .inl hok
            · exact .inr ⟨herr, .inr (.inr (.inr hfail))⟩

end Chunkable

/-- **What was published in chunks comes back**: a fetch that names the bundle of a
publish returns the pack or an error, whatever the host does and in whatever order the
chunks arrive, and the pack if every read succeeds. -/
theorem chunked_roundTrip {cr : Crypto} {pack : Bytes} {chunkSize : UInt32} {parallelism : Nat}
    (hpack : pack ≠ []) (hsize : chunkSize ≠ 0)
    (hcount : chunkTotal pack.length chunkSize.toNat < 2 ^ 32) (hp : parallelism ≠ 0) :
    ∃ plan, publishPlan cr pack chunkSize parallelism = .ok plan ∧
      ∀ (env : ChunkedFetchEnv) (manifestHash : ManifestHash) (totalSize : UInt64)
        (chunkCount : UInt32) (parallelism : Nat),
        (plan.published cr).bundle = .chunkedPack manifestHash totalSize chunkCount →
        (plan.stored ∪ env.offered).InjOn cr.blake3 →
        env.order.Perm (List.range chunkCount.toNat) →
        (fetchChunkedPack cr env manifestHash totalSize chunkCount parallelism = .ok pack ∨
          ∃ e, fetchChunkedPack cr env manifestHash totalSize chunkCount parallelism =
            .error (.err e)) ∧
        (parallelism ≠ 0 → env.pool = .ok () →
          (∃ bytes, getPack cr env.manifestGet manifestHash = .ok bytes) →
          (∀ i hash, plan.manifest.chunkHashes[i]? = some hash →
            ∃ bytes, getPack cr (env.chunkGet i) hash = .ok bytes) →
          fetchChunkedPack cr env manifestHash totalSize chunkCount parallelism = .ok pack) := by
  have h : Chunkable pack chunkSize := ⟨hpack, hsize, hcount⟩
  obtain ⟨mbytes, hmbytes, hplan⟩ := h.publishPlan_eq cr hp
  refine ⟨_, hplan, fun env manifestHash totalSize chunkCount parallelism hbundle hcr horder => ?_⟩
  cases hbundle
  have hrun := h.fetch_cases hcr Set.subset_union_right hmbytes (.inl (.inr rfl))
    (fun i hi => .inl (.inl (List.mem_of_getElem? (getElem?_chunkAt hi))))
    (h.toNat_chunkCount cr ▸ horder) parallelism
  refine ⟨hrun.imp_right And.left, fun hp hpool ⟨_, hmanifest⟩ hall => hrun.resolve_right ?_⟩
  rintro ⟨-, h0 | ⟨e, he⟩ | ⟨e, he⟩ | ⟨i, e, hi, he⟩⟩
  · exact hp h0
  · rw [hpool] at he
    cases he
  · exact nomatch hmanifest.symm.trans he
  · obtain ⟨_, hok⟩ := hall i (cr.blake3 (chunkAt pack chunkSize i)) (by
      change ((splitPack pack chunkSize).map cr.blake3)[i]? = _
      rw [List.getElem?_map, getElem?_chunkAt hi]
      rfl)
    exact nomatch hok.symm.trans he

namespace Sample

/-! Two chunks, of which the second one arrives first. -/

def served (bytes : Option Bytes) : PackGet where
  cache := none
  answer := match bytes with
    | some bytes => .ok bytes
    | none => .error "contract 11111111111111111111111111111111 not found on the network"

def servedEnv : ChunkedFetchEnv where
  pool := .ok ()
  manifestGet := served (some twoChunks.manifestBytes)
  chunkGet i := served twoChunks.chunks[i]?
  order := [1, 0]

theorem mem_offered_served {bytes : Option Bytes} {b : Bytes} (h : b ∈ (served bytes).offered) :
    bytes = some b := by
  rcases h with ⟨files, hash, hfiles, -⟩ | h
  · cases hfiles
  · cases bytes with
    | none => cases h
    | some bytes =>
        cases h
        rfl

theorem twoChunks_injOn :
    (twoChunks.stored ∪ servedEnv.offered).InjOn unsigned.blake3 := by
  have hlist : ∀ x ∈ [[7, 8], [9], twoChunks.manifestBytes],
      ∀ y ∈ [[7, 8], [9], twoChunks.manifestBytes],
        unsigned.blake3 x = unsigned.blake3 y → x = y := by decide
  have hmem : ∀ b ∈ twoChunks.stored ∪ servedEnv.offered,
      b ∈ [[7, 8], [9], twoChunks.manifestBytes] := by
    rintro b ((hb | rfl) | hb | ⟨i, hb⟩)
    · exact List.mem_append_left [twoChunks.manifestBytes] hb
    · exact List.mem_append_right [[7, 8], [9]] (List.mem_singleton_self _)
    · cases mem_offered_served hb
      exact List.mem_append_right [[7, 8], [9]] (List.mem_singleton_self _)
    · exact List.mem_append_left [twoChunks.manifestBytes]
        (List.mem_of_getElem? (mem_offered_served hb))
  exact fun x hx y hy => hlist x (hmem x hx) y (hmem y hy)

end Sample

open Sample in
theorem chunked_roundTrip_two :
    fetchChunkedPack unsigned servedEnv (unsigned.blake3 twoChunks.manifestBytes) 3 2 4 =
      .ok [7, 8, 9] := by
  obtain ⟨plan, hplan, h⟩ := @chunked_roundTrip unsigned [7, 8, 9] 2 2 (by decide) (by decide)
    (by decide) (by decide)
  cases publishPlan_twoChunks.symm.trans hplan
  refine (h servedEnv _ 3 2 4 rfl twoChunks_injOn (by decide)).2 (by decide) rfl ⟨_, rfl⟩ ?_
  intro i hash hi
  match i, hi with
  | 0, hi =>
      cases hi
      exact ⟨_, rfl⟩
  | 1, hi =>
      cases hi
      exact ⟨_, rfl⟩

end FreenetGit
