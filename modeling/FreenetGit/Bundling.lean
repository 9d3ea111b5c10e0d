/-
# `FreenetGit.Bundling` — one contract or chunks

The publishing step of a push compares the length of the pack with the chunk
size, announces a number of chunks, and leaves the split to the chunked
publish.  The three agree, as far as they are reached: the announced number is
a division by the chunk size, which the publish checks for zero later, and the
publish counts the chunks in 32 bits.
-/
import FreenetGit.Push
import FreenetGit.ChunkedFetch

namespace FreenetGit

open Lib

/-! ## The settings -/

/-- `str::parse` for an unsigned integer below a bound: digits behind an optional plus sign. -/
def parseUnsigned (bound : Nat) (s : String) : Option Nat :=
  let digits := match s.toList with
    | '+' :: rest => rest
    | cs => cs
  if digits ≠ [] ∧ digits.all Char.isDigit then
    (some (digits.foldl (fun n c => 10 * n + (c.toNat - 48)) 0)).filter (· < bound)
  else none

/-- `DEFAULT_CHUNK_SIZE`. -/
def defaultChunkSize : UInt32 := 1024 * 1024

/-- `chunk_size_from_env`, given `FREENET_GIT_CHUNK_SIZE`. -/
def chunkSizeFromEnv (value : Option String) : UInt32 :=
  ((value.bind (parseUnsigned (2 ^ 32))).map UInt32.ofNat).getD defaultChunkSize

/-- `DEFAULT_PARALLEL_OPS`. -/
def defaultParallelOps : Nat := 8

/-- `parallelism_from_env`, given `FREENET_GIT_PARALLEL_OPS`. -/
def parallelismFromEnv (value : Option String) : Nat :=
  ((value.bind (parseUnsigned (2 ^ 64))).filter (0 < ·)).getD defaultParallelOps

theorem parallelismFromEnv_pos (value : Option String) : 0 < parallelismFromEnv value := by
  rw [parallelismFromEnv]
  cases h : (value.bind (parseUnsigned (2 ^ 64))).filter (0 < ·) with
  | none => exact Nat.zero_lt_succ _
  | some n =>
      have hn := (Option.filter_eq_some_iff.mp h).2
      simpa using hn

/-! ## The number of chunks -/

/-- The number of chunks is the length divided by the chunk size, rounded up. -/
theorem chunkTotal_eq_ceil {len c : Nat} (hc : 0 < c) :
    chunkTotal len c = (len + (c - 1)) / c := by
  have hsum : len + (c - 1) = len % c + (c - 1) + c * (len / c) := by
    have hdiv := Nat.div_add_mod len c
    omega
  have hmod := Nat.mod_lt len hc
  rw [chunkTotal, hsum, Nat.add_mul_div_left _ _ hc, Nat.add_comm]
  congr 1
  split
  · next h0 =>
      rw [h0, Nat.zero_add]
      exact (Nat.div_eq_of_lt (Nat.sub_lt hc Nat.one_pos)).symm
  · next h0 =>
      refine (Nat.div_eq_of_lt_le ?_ ?_).symm <;> omega

/-- A pack that is longer than a chunk takes two at least. -/
theorem two_le_chunkTotal {len c : Nat} (hc : 0 < c) (h : c < len) : 2 ≤ chunkTotal len c := by
  have hle := @le_chunkTotal_mul len c hc
  by_contra hlt
  have hone : chunkTotal len c ≤ 1 := by omega
  have := Nat.mul_le_mul_right c hone
  omega

theorem toUInt64_ne_zero {n : UInt32} (h : n ≠ 0) : n.toUInt64 ≠ 0 := fun h0 =>
  h (UInt32.toNat_inj.mp (UInt64.toNat_inj.mpr h0))

/-- **The announced number is the number of chunks.** -/
theorem divCeil_eq {a b : UInt64} (hb : b ≠ 0) :
    ∃ q, divCeil a b = .ok q ∧ q.toNat = chunkTotal a.toNat b.toNat := by
  have hmod : a % b = 0 ↔ a.toNat % b.toNat = 0 := by
    rw [← UInt64.toNat_inj, UInt64.toNat_mod]
    rfl
  refine ⟨_, if_neg hb, ?_⟩
  rw [chunkTotal]
  by_cases h0 : a % b = 0
  · rw [if_pos h0, if_pos (hmod.mp h0), UInt64.toNat_div, Nat.add_zero]
  · have hr : a.toNat % b.toNat ≠ 0 := mt hmod.mpr h0
    have hbpos : 1 ≤ b.toNat := Nat.pos_of_ne_zero fun h => hb (UInt64.toNat_inj.mp h)
    have hdiv := Nat.div_add_mod a.toNat b.toNat
    have hle := Nat.mul_le_mul_right (a.toNat / b.toNat) hbpos
    have hlt := a.toNat_lt
    rw [if_neg h0, if_neg hr, UInt64.toNat_add, UInt64.toNat_div, UInt64.toNat_one]
    -- something is left over, so the quotient is not the last number
    exact Nat.mod_eq_of_lt (by omega)

/-! ## What the chunked publish returns -/

section

variable {cr : Crypto} {packId : PackHash → ContractId} {pack : Bytes} {chunkSize : UInt32}
  {parallelism conns : Nat} {cache : PackCache} {plan : PublishPlan} {tr : PublishTrace}
  {s s' : PublishState} {e : PublishEvent}
  {result : Outcome (List String) PublishedChunkedPack}

/-- A pack that can be published in chunks passes every check. -/
theorem publishPlan_of_chunkable (h : Chunkable pack chunkSize) (hp : 0 < parallelism) :
    ∃ plan, publishPlan cr pack chunkSize parallelism = .ok plan ∧
      plan.manifest = manifestOf cr pack chunkSize := by
  have hempty : ¬ pack.isEmpty = true := by
    simpa using h.nonempty
  obtain ⟨bs, hbs⟩ := ChunkedPackManifestV1.exists_toBytes (h.fromChunks_eq (ε := List String) cr)
  refine ⟨⟨splitPack pack chunkSize, manifestOf cr pack chunkSize, bs⟩, ?_, rfl⟩
  rw [publishPlan, if_neg hempty, if_neg h.positive, if_neg hp.ne']
  refine bind_eq_ok.mpr ⟨manifestOf cr pack chunkSize, h.fromChunks_eq cr, ?_⟩
  rw [h.validate_manifestOf]
  dsimp only
  rw [hbs]

/-- The number of chunks has 32 bits, or its `expect` fails. -/
theorem publishPlan_panicked (hpack : pack ≠ []) (hsize : chunkSize ≠ 0) (hp : 0 < parallelism)
    (hcount : 2 ^ 32 ≤ chunkTotal pack.length chunkSize.toNat) :
    publishPlan cr pack chunkSize parallelism = .error .panicked := by
  have hempty : ¬ pack.isEmpty = true := by
    simpa using hpack
  have hfrom : ChunkedPackManifestV1.fromChunks (ε := List String) cr chunkSize
      (splitPack pack chunkSize) = .error .panicked := by
    rw [ChunkedPackManifestV1.fromChunks, length_splitPack, if_neg hcount.not_gt]
  rw [publishPlan, if_neg hempty, if_neg hsize, if_neg hp.ne']
  dsimp only
  rw [hfrom]
  rfl

/-- A publish that has ended returns what was planned, or an error. -/
def EndsWell (cr : Crypto) (plan : PublishPlan) : PublishState → Prop
  | .running _ _ _ => True
  | .ended result => result = .ok (plan.published cr) ∨ ∃ e, result = .error (.err e)

theorem EndsWell.received {ph : PublishPhase} {tasks : List Task} {i : Nat} {job : Job}
    {bytes : Bytes} : EndsWell cr plan (plan.received cr ph tasks i job bytes cache) := by
  unfold PublishPlan.received
  split
  · next e he =>
      refine .inr ?_
      unfold PublishPlan.verify at he
      split at he
      · split at he
        · cases he
          exact ⟨_, rfl⟩
        · cases he
      · split at he
        · cases he
          exact ⟨_, rfl⟩
        · cases he
      · cases he
  · trivial

theorem EndsWell.step (hs : PublishStep cr packId plan conns s e s') : EndsWell cr plan s' := by
  cases hs with
  | start | miss | send | skip | retry | next => trivial
  | hit | succeed => exact .received
  | refuse | giveUp => exact .inr ⟨_, rfl⟩
  | done => exact .inl rfl

/-- **A publish whose checks pass does not panic**: it returns what was planned, or an error. -/
theorem PublishCall.result_eq (hcall : PublishCall cr packId pack chunkSize parallelism cache tr result)
    (hplan : publishPlan cr pack chunkSize parallelism = .ok plan) :
    result = .ok (plan.published cr) ∨ ∃ e, result = .error (.err e) := by
  cases hcall with
  | rejected hplan' => cases hplan.symm.trans hplan'
  | unconnected => exact .inr ⟨_, rfl⟩
  | @ran plan' conns _ _ hplan' _ _ hrun =>
      cases hplan.symm.trans hplan'
      have h₀ : EndsWell cr plan (plan.enter cr .putChunk cache) := trivial
      have hends : EndsWell cr plan (.ended result) :=
        hrun.invariant h₀ fun _ _ _ _ hs => EndsWell.step hs
      exact hends

end

/-! ## The publishing step -/

/-- What the push gets from `publish_chunked_pack_with_progress`. -/
def publishedBundle : Outcome (List String) PublishedChunkedPack → Outcome String ObjectBundle
  | .ok published => .ok published.bundle
  | .error .panicked => .error .panicked
  | .error (.err msgs) => .error (.err (String.intercalate ": " msgs))

section

variable (cr : Crypto) (packId : PackHash → ContractId) (host : PushHost) (env : PushEnv)
  (parallelOps : Option String) (pack : Bytes)

/-- The host publishes as the code does: `put_pack` returns, and a chunked publish is a call
of `publish_chunked_pack_with_progress`. -/
structure Publishes : Prop where
  put_returns : host.putPack pack ≠ .error .panicked
  chunked : ∃ cache tr result, PublishCall cr packId pack env.chunkSize
    (parallelismFromEnv parallelOps) cache tr result ∧ host.publishChunked pack = publishedBundle result

/-- The bundle is the one that the length of the pack calls for. -/
def BundleFits : ObjectBundle → Prop
  | .singlePack packHash sizeBytes => pack.length ≤ env.chunkSize.toNat ∧
      packHash = cr.blake3 pack ∧ sizeBytes.toNat = pack.length
  | .chunkedPack _ totalSize chunkCount => env.chunkSize.toNat < pack.length ∧
      chunkCount.toNat = (pack.length + (env.chunkSize.toNat - 1)) / env.chunkSize.toNat ∧
      2 ≤ chunkCount.toNat ∧
      divCeil (UInt64.ofNat pack.length) env.chunkSize.toUInt64 = .ok chunkCount.toUInt64 ∧
      totalSize.toNat = pack.length

/-- The publishing step returns.  It gives the bundle that the length of the pack calls for, a
chunk size of zero is an error, and any other error is the network's: that of `put_pack`,
or one that comes after the checks of the chunked publish. -/
structure DecidesExactly : Prop where
  returns : publishBundle cr host env pack ≠ .error .panicked
  fits : ∀ bundle, publishBundle cr host env pack = .ok bundle → BundleFits cr env pack bundle
  zero : env.chunkSize = 0 → ∃ e, publishBundle cr host env pack = .error (.err e)
  network : env.chunkSize ≠ 0 → ∀ e, publishBundle cr host env pack = .error (.err e) →
    if pack.length ≤ env.chunkSize.toNat then host.putPack pack = .error (.err e)
    else ∃ plan, publishPlan cr pack env.chunkSize (parallelismFromEnv parallelOps) = .ok plan

end

section

variable {cr : Crypto} {packId : PackHash → ContractId} {host : PushHost} {env : PushEnv}
  {parallelOps : Option String} {pack : Bytes}

/-- A pack within the chunk size is one contract. -/
theorem decidesExactly_single (h : Publishes cr packId host env parallelOps pack)
    (hpack : pack ≠ []) (hle : pack.length ≤ env.chunkSize.toNat) :
    DecidesExactly cr host env parallelOps pack := by
  have hlt : pack.length < 2 ^ 64 := by
    have := env.chunkSize.toNat_lt
    omega
  have hstep : publishBundle cr host env pack = (do
      host.putPack pack
      .ok (.singlePack (cr.blake3 pack) (UInt64.ofNat pack.length))) := if_pos hle
  -- only the PUT can fail
  have hput : ∀ f, publishBundle cr host env pack = .error f → host.putPack pack = .error f := by
    intro f hf
    rw [hstep] at hf
    rcases bind_eq_error.mp hf with hf | ⟨_, -, hf⟩
    · exact hf
    · cases hf
  constructor
  · exact fun hp => h.put_returns (hput _ hp)
  · intro bundle hb
    rw [hstep] at hb
    obtain ⟨_, -, hb⟩ := bind_eq_ok.mp hb
    cases hb
    exact ⟨hle, rfl, UInt64.toNat_ofNat_of_lt' hlt⟩
  · intro h0
    rw [h0] at hle
    exact absurd (List.eq_nil_of_length_eq_zero (Nat.le_zero.mp hle)) hpack
  · intro _ e he
    rw [if_pos hle]
    exact hput _ he

/-- A larger pack is announced, and then published in chunks. -/
theorem publishBundle_chunked (hsize : env.chunkSize ≠ 0)
    (hlt : env.chunkSize.toNat < pack.length) :
    publishBundle cr host env pack = host.publishChunked pack := by
  obtain ⟨q, hq, -⟩ := divCeil_eq (a := UInt64.ofNat pack.length) (toUInt64_ne_zero hsize)
  rw [publishBundle, if_neg hlt.not_ge, hq]
  rfl

theorem decidesExactly_chunked (h : Publishes cr packId host env parallelOps pack)
    (hlt : env.chunkSize.toNat < pack.length) (hc : Chunkable pack env.chunkSize) :
    DecidesExactly cr host env parallelOps pack := by
  obtain ⟨cache, tr, result, hcall, hhost⟩ := h.chunked
  obtain ⟨plan, hplan, hmanifest⟩ :=
    @publishPlan_of_chunkable cr _ _ _ hc (parallelismFromEnv_pos parallelOps)
  have hstep : publishBundle cr host env pack = publishedBundle result :=
    (publishBundle_chunked hc.positive hlt).trans hhost
  have hresult := hcall.result_eq hplan
  have hpos := pos_of_ne_zero hc.positive
  constructor
  · rw [hstep]
    rcases hresult with rfl | ⟨e, rfl⟩ <;> exact nofun
  · intro bundle hb
    rw [hstep] at hb
    rcases hresult with rfl | ⟨e, rfl⟩
    · cases hb
      show BundleFits cr env pack (.chunkedPack _ plan.manifest.totalSize plan.manifest.chunkCount)
      rw [hmanifest]
      have hcount := hc.toNat_chunkCount cr
      refine ⟨hlt, ?_, ?_, ?_, hc.toNat_totalSize cr⟩
      · rw [hcount, chunkTotal_eq_ceil hpos]
      · rw [hcount]
        exact two_le_chunkTotal hpos hlt
      · obtain ⟨q, hq, hqnat⟩ :=
          divCeil_eq (a := UInt64.ofNat pack.length) (toUInt64_ne_zero hc.positive)
        rw [UInt64.toNat_ofNat_of_lt' hc.length_lt] at hqnat
        have hqcount : q = (manifestOf cr pack env.chunkSize).chunkCount.toUInt64 :=
          UInt64.toNat_inj.mp (hqnat.trans hcount.symm)
        rw [hq, hqcount]
    · cases hb
  · exact fun h0 => absurd h0 hc.positive
  · intro _ e _
    rw [if_neg hlt.not_ge]
    exact ⟨plan, hplan⟩

/-- **The decision between one contract and chunks is total and exact** if and only if a pack
that is longer than the chunk size is to be cut in chunks of a positive size, fewer than 2³². -/
theorem publishBundle_exact_iff (h : Publishes cr packId host env parallelOps pack)
    (hpack : pack ≠ []) :
    DecidesExactly cr host env parallelOps pack ↔
      pack.length ≤ env.chunkSize.toNat ∨
        (env.chunkSize ≠ 0 ∧ chunkTotal pack.length env.chunkSize.toNat < 2 ^ 32) := by
  constructor
  · intro hexact
    by_contra hcond
    obtain ⟨hlt, hcond⟩ := not_or.mp hcond
    rw [Nat.not_le] at hlt
    apply hexact.returns
    by_cases hsize : env.chunkSize = 0
    · rw [publishBundle, if_neg hlt.not_ge, hsize]
      rfl
    · have hcount : 2 ^ 32 ≤ chunkTotal pack.length env.chunkSize.toNat :=
        Nat.not_lt.mp fun hlt => hcond ⟨hsize, hlt⟩
      obtain ⟨cache, tr, result, hcall, hhost⟩ := h.chunked
      have hplan := @publishPlan_panicked cr _ _ _ hpack hsize
        (parallelismFromEnv_pos parallelOps) hcount
      rw [publishBundle_chunked hsize hlt, hhost]
      cases hcall with
      | rejected hplan' =>
          cases hplan.symm.trans hplan'
          rfl
      | unconnected hplan' => cases hplan.symm.trans hplan'
      | ran hplan' => cases hplan.symm.trans hplan'
  · rintro (hle | ⟨hsize, hcount⟩)
    · exact decidesExactly_single h hpack hle
    · rcases Nat.lt_or_ge env.chunkSize.toNat pack.length with hlt | hle
      · exact decidesExactly_chunked h hlt ⟨hpack, hsize, hcount⟩
      · exact decidesExactly_single h hpack hle

end

/-! ## A chunk size of zero -/

namespace Sample

/-- A host that answers a PUT, with the outcome of a chunked publish. -/
def publisher (published : Outcome (List String) PublishedChunkedPack) : PushHost where
  resolveRef _ := .error (.err "git rev-parse")
  commitExists _ := .ok false
  revPack _ _ := .error (.err "git pack-objects")
  putPack _ := .ok ()
  publishChunked _ := publishedBundle published

end Sample

theorem Sample.publishes_chunks : Publishes Sample.unsigned id
    (Sample.publisher (.ok (Sample.twoChunks.published Sample.unsigned)))
    ⟨chunkSizeFromEnv (some "2"), none⟩ (some "2") [7, 8, 9] :=
  ⟨nofun, _, _, _, Sample.served_call, rfl⟩

theorem Sample.publishes_single : Publishes Sample.unsigned id
    (Sample.publisher (.ok (Sample.published.published Sample.unsigned)))
    ⟨chunkSizeFromEnv (some "1024"), none⟩ (some "1") [7] :=
  ⟨nofun, _, _, _, Sample.cached_call, rfl⟩

/-- A pack that is cut in two chunks, and one that is within the chunk size. -/
theorem publishBundle_exact_both :
    DecidesExactly Sample.unsigned
      (Sample.publisher (.ok (Sample.twoChunks.published Sample.unsigned)))
      ⟨chunkSizeFromEnv (some "2"), none⟩ (some "2") [7, 8, 9] ∧
    DecidesExactly Sample.unsigned
      (Sample.publisher (.ok (Sample.published.published Sample.unsigned)))
      ⟨chunkSizeFromEnv (some "1024"), none⟩ (some "1") [7] := by
  constructor
  · refine (publishBundle_exact_iff Sample.publishes_chunks (List.cons_ne_nil _ _)).mpr (.inr ?_)
    exact ⟨by decide, by decide⟩
  · exact (publishBundle_exact_iff Sample.publishes_single (List.cons_ne_nil _ _)).mpr
      (.inl (by decide))

/-- **A chunk size of zero panics**: the number of chunks is announced before the publish
refuses to cut the pack. -/
theorem publishBundle_zeroChunkSize :
    Publishes Sample.unsigned id
      (Sample.publisher (.error (.err ["publish_chunked_pack: zero chunk_size"])))
      ⟨chunkSizeFromEnv (some "0"), none⟩ none [7] ∧
    publishBundle Sample.unsigned
      (Sample.publisher (.error (.err ["publish_chunked_pack: zero chunk_size"])))
      ⟨chunkSizeFromEnv (some "0"), none⟩ [7] = .error .panicked ∧
    ¬ DecidesExactly Sample.unsigned
      (Sample.publisher (.error (.err ["publish_chunked_pack: zero chunk_size"])))
      ⟨chunkSizeFromEnv (some "0"), none⟩ none [7] :=
  ⟨⟨nofun, none, [], _, .rejected rfl, rfl⟩, rfl, fun h => h.returns rfl⟩

end FreenetGit
