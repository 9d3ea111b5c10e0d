/-
# `FreenetGit.Restored` — what a rescue leaves behind

A rescue as one system: the loop over the bundles, and the tasks in flight, whose PUTs and
GETs interleave.  At any time it has put nothing but packs that the repository names
(`rescue_careful`), and when it reports no failure every bundle of its set can be downloaded
again (`rescue_restores`).
-/
import FreenetGit.Rescuing
import FreenetGit.Lib.Workers

namespace FreenetGit

open Lib

namespace rescue

/-! ## The rescue -/

/-- The packs that may stand in for lost ones: those rebuilt from the clone, if one is given. -/
def localPacks (cr : Crypto) (source : Option CloneGit) (state : RepoState) : LocalPackMap :=
  match source with
  | some git => buildLocalPackMap cr git state
  | none => ∅

/-- How the end of a spawned task is reported. -/
inductive Joins : Option (Outcome Empty BundleOutcome) → JoinResult → Prop
  | returned {outcome : BundleOutcome} : Joins (some (.ok outcome)) (.returned outcome)
  | panicked {joinErr : String} : Joins (some (.error .panicked)) (.panicked joinErr)
  | died {joinErr : String} : Joins none (.panicked joinErr)
  | cancelled {joinErr : String} : Joins none (.cancelled joinErr)

/-- The task of an entry of the rescue set. -/
def bundleTask (cr : Crypto) (cached : Bool) (parallelism : Nat) (localPackMap : LocalPackMap)
    (entry : ObjectBundleId × ObjectBundleRecord) :
    Behaviour PackEvent (Outcome Empty BundleOutcome) :=
  rescueOneBundle cr cached parallelism entry.2.bundle ("bundle " ++ hexEncode entry.1.toList)
    localPackMap

abbrev RescueRun : Type :=
  Workers.Trace (ObjectBundleId × ObjectBundleRecord) RescueReport JoinResult ObjectBundleId PackEvent

abbrev System : Type :=
  Workers.State (ObjectBundleId × ObjectBundleRecord) RescueReport ObjectBundleId PackEvent

/-- The steps of a rescue: of the loop over the bundles, and of the tasks in flight. -/
abbrev SystemStep (cr : Crypto) (cached : Bool) (parallelism : Nat) (localPackMap : LocalPackMap)
    (parallelBundles : Nat) : System →
      Workers.Event (ObjectBundleId × ObjectBundleRecord) JoinResult ObjectBundleId PackEvent →
      System → Prop :=
  Workers.Step (max parallelBundles 1) RescueReport.count Prod.fst
    (bundleTask cr cached parallelism localPackMap) Joins

/-- Bytes that a bundle names, as what it names them. -/
def Named (cr : Crypto) (slot : RescueSlot) (bytes : Bytes) : ObjectBundle → Prop
  | .singlePack hash _ => slot = .pack ∧ cr.blake3 bytes = hash
  | .chunkedPack hash _ _ => ∃ mbytes m, Decodes cr hash mbytes m ∧
      ((slot = .manifest ∧ bytes = mbytes) ∨
        ∃ i, slot = .chunk i ∧ m.chunkHashes[i]? = some (cr.blake3 bytes))

/-- What a rescue puts at any time: packs that the repository names, and a manifest when all of
its chunks are stored. -/
structure RescueCareful (cr : Crypto) (kept : List (ObjectBundleId × ObjectBundleRecord))
    (tr : RescueRun) : Prop where
  named : ∀ t ∈ tr, ∀ id slot bytes, t.event = .act id (.put slot bytes) →
    ∃ record, (id, record) ∈ kept ∧ Named cr slot bytes record.bundle
  order : ∀ before t after, tr = before ++ t :: after → ∀ id bytes,
    t.event = .act id (.put .manifest bytes) →
    ∃ m, ChunkedPackManifestV1.fromBytes cr bytes = .ok m ∧
      ∀ i hash, m.chunkHashes[i]? = some hash → Stored cr (Workers.logOf id before) (.chunk i) hash

section

variable {cr : Crypto} {cached : Bool} {parallelism parallelBundles skipped : Nat}
  {state : RepoState} {onlyCurrentTips rescueAll : Bool} {source : Option CloneGit}
  {kept : List (ObjectBundleId × ObjectBundleRecord)} {tr : RescueRun} {s : System}

theorem keyed_localPacks (cr : Crypto) (source : Option CloneGit) (state : RepoState) :
    Keyed cr (localPacks cr source state) := by
  intro hash bytes h
  cases source with
  | some git => exact (of_buildLocalPackMap h).1
  | none =>
      change (∅ : LocalPackMap)[hash]? = some bytes at h
      rw [Std.ExtTreeMap.getElem?_empty] at h
      cases h

theorem named_of_careful {log : List PackEvent} {slot : RescueSlot} {bytes : Bytes} :
    ∀ {bundle : ObjectBundle}, Careful cr log bundle → (slot, bytes) ∈ puts log →
      Named cr slot bytes bundle
  | .singlePack hash size, h, hp => h _ hp
  | .chunkedPack hash total count, h, hp => by
      rcases h with h | ⟨mbytes, m, hm, h⟩
      · rw [h] at hp
        exact absurd hp List.not_mem_nil
      · refine ⟨mbytes, m, hm, (h.puts _ hp).imp (fun heq => ?_) id⟩
        cases heq
        exact ⟨rfl, rfl⟩

/-- A manifest that is about to be put. -/
theorem chunks_of_careful {log : List PackEvent} {bytes : Bytes} :
    ∀ {bundle : ObjectBundle}, Careful cr (log ++ [.put .manifest bytes]) bundle →
      ∃ m, ChunkedPackManifestV1.fromBytes cr bytes = .ok m ∧
        ∀ i hash, m.chunkHashes[i]? = some hash → Stored cr log (.chunk i) hash
  | .singlePack hash size, h => by
      have hp : (RescueSlot.manifest, bytes) ∈ puts (log ++ [.put .manifest bytes]) :=
        mem_puts.mpr (List.mem_append_right _ (List.mem_singleton_self _))
      cases (h _ hp).1
  | .chunkedPack hash total count, h => by
      have hp : (RescueSlot.manifest, bytes) ∈ puts (log ++ [.put .manifest bytes]) :=
        mem_puts.mpr (List.mem_append_right _ (List.mem_singleton_self _))
      rcases h with h | ⟨mbytes, m, hm, h⟩
      · rw [h] at hp
        exact absurd hp List.not_mem_nil
      · rcases h.puts _ hp with heq | ⟨i, hi, -⟩
        · cases heq
          exact ⟨m, hm.decoded, h.order log bytes [] rfl⟩
        · cases hi

theorem run_rescue_inv
    (hset : rescueSet state onlyCurrentTips rescueAll = .ok (kept, skipped))
    (hrun : Run (SystemStep cr cached parallelism (localPacks cr source state) parallelBundles)
      (Workers.begin kept .empty) tr s) :
    Workers.Inv (max parallelBundles 1) RescueReport.count Prod.fst Joins
      (fun entry => BundleResent cr entry.2.bundle) kept .empty tr s :=
  Workers.run_inv (Nat.lt_of_lt_of_le Nat.one_pos (Nat.le_max_right _ _)) (rescueSet_nodup hset)
    (fun _ => meets_rescueOneBundle (keyed_localPacks cr source state) _ _ _)
    (fun _ => ⟨careful_of_quiet rfl _, fun _ _ _ hr => by cases hr⟩) hrun

/-- **A rescue is careful**, in any order in which its tasks act, whatever the network and the
cache answer, and however the tasks end. -/
theorem rescue_careful
    (hset : rescueSet state onlyCurrentTips rescueAll = .ok (kept, skipped))
    (hrun : Run (SystemStep cr cached parallelism (localPacks cr source state) parallelBundles)
      (Workers.begin kept .empty) tr s) : RescueCareful cr kept tr := by
  have hacted : ∀ {before after : RescueRun} {t}, tr = before ++ t :: after → ∀ {id e},
      t.event = .act id e → ∃ entry ∈ kept, entry.1 = id ∧
        Careful cr (Workers.logOf id before ++ [e]) entry.2.bundle := by
    intro before after t htr id e ht
    obtain ⟨entry, hentry, hid, hspec⟩ := Workers.run_acted
      (S := fun entry => BundleResent cr entry.2.bundle)
      (Nat.lt_of_lt_of_le Nat.one_pos (Nat.le_max_right _ _)) (rescueSet_nodup hset)
      (fun _ => meets_rescueOneBundle (keyed_localPacks cr source state) _ _ _)
      (fun _ => ⟨careful_of_quiet rfl _, fun _ _ _ hr => by cases hr⟩) hrun htr ht
    exact ⟨entry, hentry, hid, hspec.1⟩
  constructor
  · intro t ht id slot bytes he
    obtain ⟨before, after, htr⟩ := List.append_of_mem ht
    obtain ⟨⟨id', record⟩, hentry, rfl, hcareful⟩ := hacted htr he
    refine ⟨record, hentry, named_of_careful hcareful (mem_puts.mpr ?_)⟩
    exact List.mem_append_right _ (List.mem_singleton_self _)
  · intro before t after htr id bytes he
    obtain ⟨entry, -, -, hcareful⟩ := hacted htr he
    exact chunks_of_careful hcareful

end

end rescue

/-! ## A rescue that succeeds -/

/-- The chunks that a result counts. -/
def JoinResult.chunks (r : JoinResult) : Nat :=
  match r.outcome with
  | .ok _ _ n => n
  | .err _ _ _ => 0

theorem RescueReport.foldl_chunkCount (report : RescueReport) (results : List JoinResult) :
    (results.foldl count report).chunkCount =
      report.chunkCount + (results.map JoinResult.chunks).sum := by
  induction results generalizing report with
  | nil => rfl
  | cons r results ih =>
      have hcount : (report.count r).chunkCount = report.chunkCount + r.chunks := by
        rw [count, JoinResult.chunks]
        cases r.outcome <;> rfl
      rw [List.foldl_cons, ih, hcount, List.map_cons, List.sum_cons, Nat.add_assoc]

theorem JoinResult.of_succeeds {r : JoinResult} (h : r.succeeds = true) :
    ∃ label kindLabel, r = .returned (.ok label kindLabel r.chunks) := by
  cases r with
  | returned outcome =>
      cases outcome with
      | ok label kindLabel n => exact ⟨label, kindLabel, rfl⟩
      | err => cases h
  | panicked | cancelled => cases h

namespace rescue

section

variable {cr : Crypto} {cached : Bool} {parallelism parallelBundles skipped : Nat}
  {state : RepoState} {onlyCurrentTips rescueAll : Bool} {source : Option CloneGit}
  {kept : List (ObjectBundleId × ObjectBundleRecord)} {tr : RescueRun} {s : System}

/-- What a rescue without failures has stored; the report counts the bundles and their chunks. -/
theorem rescue_restored
    (hset : rescueSet state onlyCurrentTips rescueAll = .ok (kept, skipped))
    (hrun : Run (SystemStep cr cached parallelism (localPacks cr source state) parallelBundles)
      (Workers.begin kept .empty) tr s)
    (hended : s.loop.point = .ended) (hok : s.loop.acc.result = .ok ()) :
    ∃ chunks : ObjectBundleId → Nat,
      (∀ entry ∈ kept, Restored cr (Workers.logOf entry.1 tr) (chunks entry.1) entry.2.bundle) ∧
      s.loop.acc.bundleCount = kept.length ∧
      s.loop.acc.chunkCount = (kept.map fun entry => chunks entry.1).sum := by
  have hinv := run_rescue_inv hset hrun
  have haccounts := Refill.run_accounts
    (Nat.lt_of_lt_of_le Nat.one_pos (Nat.le_max_right _ _)) hinv.loop
  have hcomplete := rescueComplete_of_accounts haccounts hended
  have hall := hcomplete.result.mp hok
  have hperm := hcomplete.completed
  have hnodup := rescueSet_nodup hset
  -- the result that was counted for a bundle
  let chunks (id : ObjectBundleId) : Nat :=
    (((Refill.completed (Workers.loopTrace tr)).find? fun c => c.1.1 = id).map
      fun c => c.2.chunks).getD 0
  have hchunks : ∀ c ∈ Refill.completed (Workers.loopTrace tr), chunks c.1.1 = c.2.chunks := by
    intro c hc
    have hids : ((Refill.completed (Workers.loopTrace tr)).map fun c => c.1.1).Nodup := by
      have h := (hperm.map (·.1)).nodup_iff.mpr hnodup
      rwa [List.map_map] at h
    have hfind : (Refill.completed (Workers.loopTrace tr)).find? (fun c' => c'.1.1 = c.1.1) =
        some c := by
      have hsome : ((Refill.completed (Workers.loopTrace tr)).find? fun c' =>
          c'.1.1 = c.1.1).isSome = true := List.find?_isSome.mpr ⟨c, hc, decide_eq_true rfl⟩
      obtain ⟨c', hc'⟩ := Option.isSome_iff_exists.mp hsome
      have hid : c'.1.1 = c.1.1 := by simpa using List.find?_some hc'
      rw [hc', List.inj_on_of_nodup_map hids (List.mem_of_find?_eq_some hc') hc hid]
    change ((List.find? _ _).map _).getD 0 = _
    rw [hfind]
    rfl
  refine ⟨chunks, fun entry hentry => ?_, ?_, ?_⟩
  · obtain ⟨c, hc, rfl⟩ := List.mem_map.mp (hperm.mem_iff.mpr hentry)
    obtain ⟨label, kindLabel, hr⟩ := JoinResult.of_succeeds (hall c hc)
    obtain ⟨r, hspec, hjoins⟩ := hinv.completed c hc
    rw [hr] at hjoins
    cases hjoins with
    | returned =>
        rw [hchunks c hc, ← hinv.logs]
        exact hspec.2 _ _ _ rfl
  · rw [hcomplete.succeeded, List.countP_eq_length.mpr hall, ← hperm.length_eq, List.length_map]
  · rw [(haccounts.ended hended).2.2, RescueReport.foldl_chunkCount]
    have hsum : (kept.map fun entry => chunks entry.1).sum =
        (((Refill.completed (Workers.loopTrace tr)).map (·.1)).map fun entry => chunks entry.1).sum :=
      (hperm.symm.map _).sum_eq
    rw [hsum, List.map_map, List.map_map]
    refine (Nat.zero_add _).trans (congrArg List.sum (List.map_congr_left fun c hc => ?_))
    exact (hchunks c hc).symm

end

/-! ## After a rescue -/

/-- What a download meets: one GET for a single pack, or those of a chunked one. -/
structure DownloadEnv where
  packGet : PackGet
  chunked : ChunkedFetchEnv

/-- `download_bundle`. -/
def downloadBundle (cr : Crypto) (env : DownloadEnv) (parallelism : Nat) :
    ObjectBundle → Outcome (List String) Bytes
  | .singlePack packHash _ =>
      match FreenetGit.getPack cr env.packGet packHash with
      | .ok bytes => .ok bytes
      | .error e => .error (.err [e])
  | .chunkedPack manifestHash totalSize chunkCount =>
      match fetchChunkedPack cr env.chunked manifestHash totalSize chunkCount parallelism with
      | .ok bytes => .ok bytes
      | .error .panicked => .error .panicked
      | .error (.err e) =>
          .error (.err (("fetch ChunkedPack " ++ hexEncode manifestHash.toList) :: e))

/-- The bundle is what a push records of the pack. -/
inductive Records (cr : Crypto) (pack : Bytes) : ObjectBundle → Prop
  | single {size : UInt64} : Records cr pack (.singlePack (cr.blake3 pack) size)
  | chunked {chunkSize : UInt32} {mbytes : Bytes} (h : Chunkable pack chunkSize)
      (hbytes : (manifestOf cr pack chunkSize).toBytes = some mbytes) :
      Records cr pack (.chunkedPack (cr.blake3 mbytes) (manifestOf cr pack chunkSize).totalSize
        (manifestOf cr pack chunkSize).chunkCount)

/-- A publish of the pack records it. -/
theorem records_published {cr : Crypto} {pack : Bytes} {chunkSize : UInt32}
    (h : Chunkable pack chunkSize) {parallelism : Nat} (hp : parallelism ≠ 0) :
    ∃ plan, publishPlan cr pack chunkSize parallelism = .ok plan ∧
      Records cr pack (plan.published cr).bundle := by
  obtain ⟨mbytes, hbytes, hplan⟩ := h.publishPlan_eq cr hp
  exact ⟨_, hplan, .chunked h hbytes⟩

/-- The bytes that are hashed: the pack and its pieces, what was put, and what a download is
offered. -/
inductive Touched (cr : Crypto) (pack : Bytes) (bundle : ObjectBundle) (log : List PackEvent)
    (env : DownloadEnv) : Bytes → Prop
  | pack : Touched cr pack bundle log env pack
  | chunk {chunkSize : UInt32} {mbytes chunk : Bytes} {total : UInt64} {count : UInt32}
      (hbytes : (manifestOf cr pack chunkSize).toBytes = some mbytes)
      (hbundle : bundle = .chunkedPack (cr.blake3 mbytes) total count)
      (h : chunk ∈ splitPack pack chunkSize) : Touched cr pack bundle log env chunk
  | manifest {chunkSize : UInt32} {mbytes : Bytes} {total : UInt64} {count : UInt32}
      (hbytes : (manifestOf cr pack chunkSize).toBytes = some mbytes)
      (hbundle : bundle = .chunkedPack (cr.blake3 mbytes) total count) :
      Touched cr pack bundle log env mbytes
  | stored {slot : RescueSlot} {bytes : Bytes} (h : .putDone slot bytes (.ok ()) ∈ log) :
      Touched cr pack bundle log env bytes
  | offered {bytes : Bytes} (h : bytes ∈ env.packGet.offered ∨ bytes ∈ env.chunked.offered) :
      Touched cr pack bundle log env bytes

/-- Collision-free on what is hashed. -/
def NoCollision (cr : Crypto) (pack : Bytes) (bundle : ObjectBundle) (log : List PackEvent)
    (env : DownloadEnv) : Prop :=
  Set.InjOn cr.blake3 {b | Touched cr pack bundle log env b}

/-- What was stored can be got: each GET of the download that asks for bytes of a confirmed PUT
succeeds, and there is a connection. -/
structure Serves (cr : Crypto) (log : List PackEvent) (env : DownloadEnv) : Prop where
  pack : ∀ bytes, .putDone .pack bytes (.ok ()) ∈ log →
    ∃ got, FreenetGit.getPack cr env.packGet (cr.blake3 bytes) = .ok got
  manifest : ∀ bytes, .putDone .manifest bytes (.ok ()) ∈ log →
    ∃ got, FreenetGit.getPack cr env.chunked.manifestGet (cr.blake3 bytes) = .ok got
  chunk : ∀ i bytes, .putDone (.chunk i) bytes (.ok ()) ∈ log →
    ∃ got, FreenetGit.getPack cr (env.chunked.chunkGet i) (cr.blake3 bytes) = .ok got
  pool : env.chunked.pool = .ok ()

section

variable {cr : Crypto} {pack : Bytes} {log : List PackEvent} {env : DownloadEnv}

/-- The GETs of the chunks complete in some order. -/
def Ordered (env : DownloadEnv) : ObjectBundle → Prop
  | .singlePack _ _ => True
  | .chunkedPack _ _ count => env.chunked.order.Perm (List.range count.toNat)

theorem offered_touched (bundle : ObjectBundle) :
    env.chunked.offered ⊆ {b | Touched cr pack bundle log env b} := fun _ hb => .offered (.inr hb)

/-- **A restored bundle can be downloaded.** -/
theorem Restored.download {n parallelism : Nat} (hp : parallelism ≠ 0) :
    ∀ {bundle : ObjectBundle}, Restored cr log n bundle → Records cr pack bundle →
      NoCollision cr pack bundle log env → Serves cr log env → Ordered env bundle →
      downloadBundle cr env parallelism bundle = .ok pack
  | .singlePack hash size, hrestored, hrecords, hcr, hserves, _ => by
      obtain ⟨-, bytes, hbytes, hstored⟩ := hrestored
      cases hrecords with
      | single =>
          obtain ⟨got, hgot⟩ := hserves.pack bytes hstored
          rw [hbytes] at hgot
          obtain ⟨hoffered, hhash⟩ := of_getPack hgot
          have heq : got = pack := hcr (.offered (.inl hoffered)) .pack hhash
          rw [downloadBundle, hgot, heq]
  | .chunkedPack hash total count, hrestored, hrecords, hcr, hserves, horder => by
      obtain ⟨mbytes', m, hdecodes, -, hchunks, hmanifest⟩ := hrestored
      cases hrecords with
      | @chunked chunkSize mbytes h hbytes =>
          have hmbytes : mbytes' = mbytes :=
            hcr (.stored hmanifest) (.manifest hbytes rfl) hdecodes.hash_eq
          subst hmbytes
          have hm : m = manifestOf cr pack chunkSize := by
            have hdecoded := hdecodes.decoded
            rw [h.fromBytes_manifestOf hbytes] at hdecoded
            exact (Except.ok.inj hdecoded).symm
          subst hm
          have hfetch := h.fetch_cases hcr (offered_touched _) hbytes
            (.manifest hbytes rfl)
            (fun i hi => .chunk hbytes rfl (List.mem_of_getElem? (getElem?_chunkAt hi)))
            (h.toNat_chunkCount cr ▸ horder) parallelism
          -- none of the reads can have failed
          have hok := hfetch.resolve_right (by
            rintro ⟨-, h0 | ⟨e, he⟩ | ⟨e, he⟩ | ⟨i, e, hi, he⟩⟩
            · exact hp h0
            · rw [hserves.pool] at he
              cases he
            · obtain ⟨got, hgot⟩ := hserves.manifest mbytes' hmanifest
              rw [hgot] at he
              cases he
            · have hhash : (manifestOf cr pack chunkSize).chunkHashes[i]? =
                  some (cr.blake3 (chunkAt pack chunkSize i)) := by
                change ((splitPack pack chunkSize).map cr.blake3)[i]? = _
                rw [List.getElem?_map, getElem?_chunkAt hi]
                rfl
              obtain ⟨bytes, hb, hstored⟩ := hchunks i _ hhash
              obtain ⟨got, hgot⟩ := hserves.chunk i bytes hstored
              rw [hb, he] at hgot
              cases hgot)
          rw [downloadBundle, hok]

end

/-- What a rescue without failures leaves: its report counts what is stored, and any host that
serves what was stored gives back the packs that the bundles record. -/
structure RescueRestored (cr : Crypto) (kept : List (ObjectBundleId × ObjectBundleRecord))
    (tr : RescueRun) (report : RescueReport) : Prop where
  restored : ∃ chunks : ObjectBundleId → Nat,
    (∀ entry ∈ kept, Restored cr (Workers.logOf entry.1 tr) (chunks entry.1) entry.2.bundle) ∧
    report.bundleCount = kept.length ∧
    report.chunkCount = (kept.map fun entry => chunks entry.1).sum
  downloads : ∀ entry ∈ kept, ∀ (pack : Bytes) (env : DownloadEnv) (parallelism : Nat),
    Records cr pack entry.2.bundle →
    NoCollision cr pack entry.2.bundle (Workers.logOf entry.1 tr) env →
    Serves cr (Workers.logOf entry.1 tr) env → Ordered env entry.2.bundle → parallelism ≠ 0 →
    downloadBundle cr env parallelism entry.2.bundle = .ok pack

/-- **A rescue that reports no failure has restored every bundle of its set**: its pack, or its
manifest and all the chunks that the manifest names, were stored under their hashes. -/
theorem rescue_restores {cr : Crypto} {cached : Bool} {parallelism parallelBundles skipped : Nat}
    {state : RepoState} {onlyCurrentTips rescueAll : Bool} {source : Option CloneGit}
    {kept : List (ObjectBundleId × ObjectBundleRecord)} {tr : RescueRun} {s : System}
    (hset : rescueSet state onlyCurrentTips rescueAll = .ok (kept, skipped))
    (hrun : Run (SystemStep cr cached parallelism (localPacks cr source state) parallelBundles)
      (Workers.begin kept .empty) tr s)
    (hended : s.loop.point = .ended) (hok : s.loop.acc.result = .ok ()) :
    RescueRestored cr kept tr s.loop.acc where
  restored := rescue_restored hset hrun hended hok
  downloads entry hentry pack env parallelism hrecords hcr hserves horder hp := by
    obtain ⟨chunks, hall, -, -⟩ := rescue_restored hset hrun hended hok
    exact (hall entry hentry).download hp hrecords hcr hserves horder

end rescue

/-! A rescue of two bundles at a time: a pack of one byte, and one of two chunks. -/

namespace Sample

open rescue

def lostManifest : ChunkedPackManifestV1 :=
  ⟨1, 2, 3, 2, [(zeros 32).set 0 1 hash_pos, (zeros 32).set 0 2 hash_pos]⟩

def lostManifestBytes : Bytes := lostManifest.toBytes.getD []

/-- All that is hashed. -/
def lostBytes : List Bytes := [[5], [7, 8], [9], lostManifestBytes, [7, 8, 9]]

/-- A text is hashed to its place in the list. -/
def placed : Crypto :=
  { unsigned with blake3 := fun bs => (zeros 32).set 0 (UInt8.ofNat (lostBytes.idxOf bs)) hash_pos }

theorem placed_inj {x y : Bytes} (hx : x ∈ lostBytes) (h : placed.blake3 x = placed.blake3 y) :
    x = y := by
  have hbyte := congrArg (fun v : Vector UInt8 32 => v[0].toNat) h
  have hplace : ∀ z : Bytes, (UInt8.ofNat (lostBytes.idxOf z)).toNat = lostBytes.idxOf z := by
    intro z
    have hle := List.idxOf_le_length (l := lostBytes) (a := z)
    rw [UInt8.toNat_ofNat']
    exact Nat.mod_eq_of_lt (Nat.lt_of_le_of_lt hle (by decide))
  have hidx : lostBytes.idxOf x = lostBytes.idxOf y := by
    simpa [placed, hplace] using hbyte
  exact (List.idxOf_inj hx).mp hidx

def lostPack : ObjectBundleId × ObjectBundleRecord :=
  (zeros 32, ⟨.singlePack (placed.blake3 [5]) 1, owner, 0, sig 0⟩)

def lostChunks : ObjectBundleId × ObjectBundleRecord :=
  ((zeros 32).set 0 1 hash_pos,
    ⟨.chunkedPack (placed.blake3 lostManifestBytes) 3 2, owner, 0, sig 1⟩)

def lostState : RepoState :=
  { RepoState.default with
    objectIndex := ((∅ : BTreeMap ObjectBundleId ObjectBundleRecord).insert lostPack.1
      lostPack.2).insert lostChunks.1 lostChunks.2 }

def lostKept : List (ObjectBundleId × ObjectBundleRecord) := [lostPack, lostChunks]

theorem rescueSet_lost : rescueSet lostState false false = .ok (lostKept, 0) := by
  decide +kernel

theorem lost_chunkable : Chunkable [7, 8, 9] 2 := ⟨by decide, by decide, by decide⟩

theorem manifestOf_lost : manifestOf placed [7, 8, 9] 2 = lostManifest := by rfl

theorem toBytes_lost : lostManifest.toBytes = some lostManifestBytes := by rfl

theorem fromBytes_lost : ChunkedPackManifestV1.fromBytes placed lostManifestBytes =
    .ok lostManifest :=
  manifestOf_lost ▸ lost_chunkable.fromBytes_manifestOf (manifestOf_lost ▸ toBytes_lost)

/-! ### The tasks -/

/-- The second chunk is got and put while the first one is still awaited. -/
def chunksLog : List PackEvent :=
  [.get (placed.blake3 [7, 8]), .get (placed.blake3 [9]), .got (placed.blake3 [9]) (.ok [9]),
    .put (.chunk 1) [9], .got (placed.blake3 [7, 8]) (.ok [7, 8]), .put (.chunk 0) [7, 8],
    .putDone (.chunk 1) [9] (.ok ()), .putDone (.chunk 0) [7, 8] (.ok ())]

theorem chunksLog_interleaves :
    Behaviour.Interleaves ([[7, 8], [9]].mapIdx fun i => resent placed (.chunk i)) chunksLog := by
  have hdone : ∀ l ∈ [[], []], l = ([] : List PackEvent) := by simp
  exact .step (i := 0) rfl (.step (i := 1) rfl (.step (i := 1) rfl (.step (i := 1) rfl
    (.step (i := 0) rfl (.step (i := 0) rfl (.step (i := 1) rfl (.step (i := 0) rfl
      (.done hdone))))))))

def packLog : List PackEvent := .connect (.ok ()) :: resent placed .pack [5]

def lostLog : List PackEvent := resentChunked placed 2 lostManifestBytes chunksLog

abbrev lostTask : ObjectBundleId × ObjectBundleRecord →
    Behaviour PackEvent (Outcome Empty BundleOutcome) :=
  bundleTask placed false 8 (localPacks placed none lostState)

def packOutcome : BundleOutcome := .ok ("bundle " ++ hexEncode lostPack.1.toList) "SinglePack" 0

def chunksOutcome : BundleOutcome :=
  .ok ("bundle " ++ hexEncode lostChunks.1.toList) ("ChunkedPack, " ++
    toString [([7, 8] : Bytes), [9]].length ++ "/" ++ toString (2 : UInt32) ++ " chunks") 2

theorem lostPack_returns : lostTask lostPack packLog (some (.ok packOutcome)) :=
  rescueOneBundle_returns_single placed [5] 1 8 _ _

theorem lostChunks_returns : lostTask lostChunks lostLog (some (.ok chunksOutcome)) :=
  rescueOneBundle_returns_chunked placed fromBytes_lost rfl chunksLog_interleaves (by decide) 3 2 _ _

/-! ### The run -/

abbrev LostStep := SystemStep placed false 8 (localPacks placed none lostState) 2

def lostReport : RescueReport :=
  (RescueReport.empty.count (.returned packOutcome)).count (.returned chunksOutcome)

theorem lost_ids_ne : lostPack.1 ≠ lostChunks.1 := by decide

/-- What the two tasks have done. -/
def lostLogs (pack chunks : List PackEvent) : ObjectBundleId → List PackEvent :=
  Function.update (Function.update (fun _ => []) lostPack.1 pack) lostChunks.1 chunks

theorem lostLogs_pack (pack chunks : List PackEvent) : lostLogs pack chunks lostPack.1 = pack := by
  rw [lostLogs, Function.update_of_ne lost_ids_ne, Function.update_self]

theorem lostLogs_chunks (pack chunks : List PackEvent) : lostLogs pack chunks lostChunks.1 = chunks :=
  Function.update_self ..

abbrev LostLoop : Type := Refill.Loop (ObjectBundleId × ObjectBundleRecord) RescueReport

theorem pack_acts (loop : LostLoop) (hin : lostPack ∈ loop.inFlight) (chunks : List PackEvent) :
    ∃ tr, Run LostStep ⟨loop, lostLogs [] chunks⟩ tr ⟨loop, lostLogs packLog chunks⟩ := by
  have hlog : lostTask lostPack (lostLogs [] chunks lostPack.1 ++ packLog)
      (some (.ok packOutcome)) := by
    rw [lostLogs_pack]
    exact lostPack_returns
  have hacts : ∃ tr, Run LostStep ⟨loop, lostLogs [] chunks⟩ tr ⟨loop, Function.update
      (lostLogs [] chunks) lostPack.1 (lostLogs [] chunks lostPack.1 ++ packLog)⟩ :=
    Workers.run_acts hin (prefixClosed_rescueOneBundle placed false 8 _ _ _) hlog
  rwa [lostLogs_pack, List.nil_append, lostLogs, Function.update_comm lost_ids_ne.symm,
    Function.update_idem] at hacts

theorem chunks_act (loop : LostLoop) (hin : lostChunks ∈ loop.inFlight) (pack : List PackEvent)
    {log log' : List PackEvent} {r : Option (Outcome Empty BundleOutcome)}
    (h : lostTask lostChunks (log ++ log') r) :
    ∃ tr, Run LostStep ⟨loop, lostLogs pack log⟩ tr ⟨loop, lostLogs pack (log ++ log')⟩ := by
  have hlog : lostTask lostChunks (lostLogs pack log lostChunks.1 ++ log') r := by
    rwa [lostLogs_chunks]
  have hacts : ∃ tr, Run LostStep ⟨loop, lostLogs pack log⟩ tr ⟨loop, Function.update
      (lostLogs pack log) lostChunks.1 (lostLogs pack log lostChunks.1 ++ log')⟩ :=
    Workers.run_acts hin (prefixClosed_rescueOneBundle placed false 8 _ _ _) hlog
  rwa [lostLogs_chunks, lostLogs, Function.update_idem] at hacts

/-- The chunked pack is begun first and ended last. -/
theorem lost_run : ∃ tr, Run LostStep (Workers.begin lostKept .empty) tr
    ⟨⟨.ended, [], [], lostReport⟩, lostLogs packLog lostLog⟩ := by
  have hsplit : lostLog.take 6 ++ lostLog.drop 6 = lostLog := List.take_append_drop 6 lostLog
  have hall : lostTask lostChunks (lostLog.take 6 ++ lostLog.drop 6) (some (.ok chunksOutcome)) :=
    hsplit.symm ▸ lostChunks_returns
  have hbegun : lostTask lostChunks ([] ++ lostLog.take 6) none :=
    prefixClosed_rescueOneBundle placed false 8 _ _ _ _ _ _ hall
  have hnil : (fun _ => [] : ObjectBundleId → List PackEvent) = lostLogs [] [] := by
    rw [lostLogs, Function.update_eq_self_iff.mpr rfl, Function.update_eq_self_iff.mpr rfl]
  have hstart : ∃ tr, Run LostStep (Workers.begin lostKept .empty) tr
      ⟨⟨.await, [], lostKept, .empty⟩, fun _ => []⟩ :=
    ⟨_, ((Run.nil.snoc (.loop (.start Nat.two_pos) rfl)).snoc
      (.loop (.start Nat.one_lt_two) rfl)).snoc (.loop (.filled (.inr rfl)) rfl)⟩
  rw [hnil] at hstart
  obtain ⟨_, hstart⟩ := hstart
  obtain ⟨_, hfirst⟩ := chunks_act ⟨.await, [], lostKept, .empty⟩
    (List.mem_cons_of_mem lostPack List.mem_cons_self) [] hbegun
  obtain ⟨_, hpack⟩ := pack_acts ⟨.await, [], lostKept, .empty⟩ List.mem_cons_self
    (lostLog.take 6)
  have hpackEnds : lostTask lostPack (lostLogs packLog (lostLog.take 6) lostPack.1)
      (some (.ok packOutcome)) := by
    rw [lostLogs_pack]
    exact lostPack_returns
  have hchunksEnds : lostTask lostChunks
      (lostLogs packLog (lostLog.take 6 ++ lostLog.drop 6) lostChunks.1)
      (some (.ok chunksOutcome)) := by
    rw [lostLogs_chunks]
    exact hall
  have hpackDone := ((hstart.trans hfirst).trans hpack).snoc (.complete (a := lostPack)
    (@Refill.Step.complete _ _ _ _ _ _ (.returned packOutcome) [] [] [lostChunks] _) hpackEnds
    .returned)
  obtain ⟨_, hrest⟩ := chunks_act ⟨.await, [], [lostChunks], _⟩ List.mem_cons_self packLog hall
  have hchunksDone := ((hpackDone.snoc (.loop (.filled (.inr rfl)) rfl)).trans hrest).snoc
    (.complete (a := lostChunks)
      (@Refill.Step.complete _ _ _ _ _ _ (.returned chunksOutcome) [] [] [] _) hchunksEnds
      .returned)
  rw [hsplit] at hchunksDone
  exact ⟨_, (hchunksDone.snoc (.loop (.filled (.inr rfl)) rfl)).snoc (.loop .finish rfl)⟩

/-- A host that has what the two bundles are made of. -/
def lostEnv : DownloadEnv where
  packGet := served (some [5])
  chunked :=
    { pool := .ok ()
      manifestGet := served (some lostManifestBytes)
      chunkGet := fun i => served ([[7, 8], [9]] : List Bytes)[i]?
      order := [1, 0] }

theorem lost_offered {b : Bytes} (h : b ∈ lostEnv.packGet.offered ∨ b ∈ lostEnv.chunked.offered) :
    b ∈ lostBytes := by
  rcases h with h | h | ⟨i, h⟩
  · cases mem_offered_served h
    decide
  · cases mem_offered_served h
    decide
  · have hchunks : ([[7, 8], [9]] : List Bytes) ⊆ lostBytes := by decide
    exact hchunks (List.mem_of_getElem? (mem_offered_served h))

/-- Only one chunk size gives this manifest. -/
theorem chunkSize_of_lost {chunkSize : UInt32}
    (h : (manifestOf placed [7, 8, 9] chunkSize).toBytes = some lostManifestBytes) :
    chunkSize = 2 := by
  have hread := (bincode.manifest.read_enc h).symm.trans (bincode.manifest.read_enc toBytes_lost)
  exact congrArg ChunkedPackManifestV1.chunkSize (Option.some.inj hread)

/-- What is hashed for either bundle. -/
theorem lost_noCollision {pack : Bytes} (hpack : pack ∈ lostBytes) {bundle : ObjectBundle}
    (hbundle : ∀ mbytes total count, bundle = .chunkedPack (placed.blake3 mbytes) total count →
      pack = [7, 8, 9] ∧ mbytes = lostManifestBytes)
    {log : List PackEvent} (hlog : ∀ slot bytes, .putDone slot bytes (.ok ()) ∈ log →
      bytes ∈ lostBytes) : NoCollision placed pack bundle log lostEnv := by
  have htouched : ∀ b, Touched placed pack bundle log lostEnv b → b ∈ lostBytes := by
    intro b hb
    cases hb with
    | pack => exact hpack
    | chunk hbytes hb h =>
        obtain ⟨rfl, rfl⟩ := hbundle _ _ _ hb
        cases chunkSize_of_lost hbytes
        have hsplit : splitPack [7, 8, 9] 2 ⊆ lostBytes := by decide
        exact hsplit h
    | manifest hbytes hb =>
        obtain ⟨-, rfl⟩ := hbundle _ _ _ hb
        decide
    | stored h => exact hlog _ _ h
    | offered h => exact lost_offered h
  exact fun x hx y _ => placed_inj (htouched x hx)

theorem served_getPack (cr : Crypto) (bytes : Bytes) :
    FreenetGit.getPack cr (served (some bytes)) (cr.blake3 bytes) = .ok bytes :=
  if_neg (not_not.mpr rfl)

theorem of_packLog {slot : RescueSlot} {bytes : Bytes} (h : .putDone slot bytes (.ok ()) ∈ packLog) :
    slot = .pack ∧ bytes = [5] := by
  simpa [packLog, resent] using h

theorem of_lostLog {slot : RescueSlot} {bytes : Bytes} (h : .putDone slot bytes (.ok ()) ∈ lostLog) :
    slot = .manifest ∧ bytes = lostManifestBytes ∨
      ∃ i, slot = .chunk i ∧ ([[7, 8], [9]] : List Bytes)[i]? = some bytes := by
  have hcases : slot = .chunk 1 ∧ bytes = [9] ∨ slot = .chunk 0 ∧ bytes = [7, 8] ∨
      slot = .manifest ∧ bytes = lostManifestBytes := by
    simpa [lostLog, resentChunked, chunksLog] using h
  rcases hcases with ⟨rfl, rfl⟩ | ⟨rfl, rfl⟩ | h
  · exact .inr ⟨1, rfl, rfl⟩
  · exact .inr ⟨0, rfl, rfl⟩
  · exact .inl h

theorem packLog_served : Serves placed packLog lostEnv := by
  refine ⟨fun bytes h => ?_, fun bytes h => ?_, fun i bytes h => ?_, rfl⟩
  · obtain ⟨-, rfl⟩ := of_packLog h
    exact ⟨_, served_getPack _ _⟩
  · cases (of_packLog h).1
  · cases (of_packLog h).1

theorem lostLog_served : Serves placed lostLog lostEnv := by
  refine ⟨fun bytes h => ?_, fun bytes h => ?_, fun i bytes h => ?_, rfl⟩
  · rcases of_lostLog h with ⟨h, -⟩ | ⟨i, h, -⟩ <;> cases h
  · rcases of_lostLog h with ⟨-, rfl⟩ | ⟨i, h, -⟩
    · exact ⟨_, served_getPack _ _⟩
    · cases h
  · rcases of_lostLog h with ⟨h, -⟩ | ⟨i, h, hi⟩
    · cases h
    · cases h
      change ∃ got, FreenetGit.getPack placed (served ([[7, 8], [9]] : List Bytes)[i]?) _ = .ok got
      rw [hi]
      exact ⟨_, served_getPack _ _⟩

end Sample

open rescue in
theorem rescue_careful_two : ∃ tr s, s.loop.point = .ended ∧
    Run Sample.LostStep (Workers.begin Sample.lostKept .empty) tr s ∧
    s.logs Sample.lostChunks.1 = Sample.lostLog ∧
    RescueCareful Sample.placed Sample.lostKept tr := by
  obtain ⟨tr, hrun⟩ := Sample.lost_run
  exact ⟨tr, _, rfl, hrun, Sample.lostLogs_chunks Sample.packLog Sample.lostLog,
    rescue_careful Sample.rescueSet_lost hrun⟩

open rescue in
theorem rescue_restores_two : ∃ tr report,
    RescueRestored Sample.placed Sample.lostKept tr report ∧ report.bundleCount = 2 ∧
      report.chunkCount = 2 ∧
      rescue.downloadBundle Sample.placed Sample.lostEnv 1 Sample.lostPack.2.bundle = .ok [5] ∧
      rescue.downloadBundle Sample.placed Sample.lostEnv 4 Sample.lostChunks.2.bundle =
        .ok [7, 8, 9] := by
  obtain ⟨tr, hrun⟩ := Sample.lost_run
  have hrestored := rescue_restores Sample.rescueSet_lost hrun rfl rfl
  have hlogs := (run_rescue_inv Sample.rescueSet_lost hrun).logs
  have hpackLog : Workers.logOf Sample.lostPack.1 tr = Sample.packLog :=
    (hlogs _).symm.trans (Sample.lostLogs_pack Sample.packLog Sample.lostLog)
  have hchunksLog : Workers.logOf Sample.lostChunks.1 tr = Sample.lostLog :=
    (hlogs _).symm.trans (Sample.lostLogs_chunks Sample.packLog Sample.lostLog)
  refine ⟨tr, _, hrestored, rfl, rfl, ?_, ?_⟩
  · refine hrestored.downloads _ List.mem_cons_self [5] _ 1 .single ?_ ?_ trivial Nat.one_ne_zero
    · rw [hpackLog]
      refine Sample.lost_noCollision (by decide) (fun _ _ _ h => by cases h) fun slot bytes h => ?_
      rw [(Sample.of_packLog h).2]
      decide
    · rw [hpackLog]
      exact Sample.packLog_served
  · refine hrestored.downloads _ (List.mem_cons_of_mem _ List.mem_cons_self) [7, 8, 9] _ 4
      (@Records.chunked Sample.placed [7, 8, 9] 2 _ Sample.lost_chunkable Sample.toBytes_lost)
      ?_ ?_ (List.Perm.swap 0 1 []) (by decide)
    · rw [hchunksLog]
      refine Sample.lost_noCollision (by decide) (fun mbytes total count h => ⟨rfl, ?_⟩)
        fun slot bytes h => ?_
      · exact (Sample.placed_inj (by decide) (ObjectBundle.chunkedPack.inj h).1).symm
      · rcases Sample.of_lostLog h with ⟨-, rfl⟩ | ⟨i, -, hi⟩
        · decide
        · have hchunks : ([[7, 8], [9]] : List Bytes) ⊆ Sample.lostBytes := by decide
          exact hchunks (List.mem_of_getElem? hi)
    · rw [hchunksLog]
      exact Sample.lostLog_served

end FreenetGit
