/-
# `FreenetGit.Rescuing` — what a rescue sends

`rescue_one_bundle` gets each pack of a bundle from the network, or from packs rebuilt from
a clone, and puts it there again.  The chunks of a bundle are done side by side, the manifest
after them.  At any time nothing but the packs that the bundle names has been put, and a
manifest only when its chunks are stored (`Careful`); a task that succeeds has stored all of
its bundle (`Restored`).  At the end of the file: with a host that answers the task of a bundle
succeeds, whatever the order of its chunks.
-/
import FreenetGit.RescueLoop
import FreenetGit.ChunkedFetch
import FreenetGit.LocalPack
import FreenetGit.Lib.Behaviour

namespace FreenetGit

open Lib

/-! ## Events -/

/-- What a pack is put as. -/
inductive RescueSlot where
  | pack
  | chunk (i : Nat)
  | manifest
deriving DecidableEq

/-- What a rescue does: a connection is opened, the pack cache is read and written, and packs
are got and put. -/
inductive PackEvent where
  | connect (answer : Except String Unit)
  | cacheRead (hash : PackHash) (found : Option Bytes)
  | cacheWrite (hash : PackHash) (bytes : Bytes)
  | get (hash : PackHash)
  | got (hash : PackHash) (answer : GetResult)
  | put (slot : RescueSlot) (bytes : Bytes)
  | putDone (slot : RescueSlot) (bytes : Bytes) (answer : Except String Unit)

namespace rescue

/-- `anyhow::Context::context`. -/
def withContext {α : Type} (msg : String) : Except (List String) α → Except (List String) α
  | .ok a => .ok a
  | .error e => .error (msg :: e)

/-- `Display` of an error with contexts. -/
def display (e : List String) : String := e.headD ""

section

variable (cr : Crypto) (cached : Bool)

/-- `connect`. -/
def connect : Behaviour PackEvent (Except String Unit) := .observe .connect

/-- The end of `get_pack_with_fetcher`: the state is read, checked and kept. -/
def fetchPack (hash : PackHash) : Behaviour PackEvent (Except (List String) Bytes) := do
  match checkFetched cr hash (← .call (.get hash) (.got hash)) with
  | .error e => pure (.error [e])
  | .ok bytes =>
      if cached then .emit (.cacheWrite hash bytes)
      pure (.ok bytes)

/-- The pack cache, if there is one. -/
def readCache (hash : PackHash) : Behaviour PackEvent (Option Bytes) :=
  if cached then .observe (.cacheRead hash) else pure none

/-- `get_pack_with_fetcher`: the hash of what the cache returns is checked again. -/
def getPack (hash : PackHash) : Behaviour PackEvent (Except (List String) Bytes) := do
  match ← readCache cached hash with
  | some bytes => if cr.blake3 bytes = hash then pure (.ok bytes) else fetchPack cr cached hash
  | none => fetchPack cr cached hash

/-- The attempts of `put_pack` that are left, and the error of the last one. -/
def putAttempts (slot : RescueSlot) (bytes : Bytes) :
    Nat → Option String → Behaviour PackEvent (Except (List String) Unit)
  | 0, lastErr => pure (.error [lastErr.getD "put_pack failed (no error captured)"])
  | n + 1, _ => do
      match ← .call (.put slot bytes) (.putDone slot bytes) with
      | .ok () =>
          if cached then .emit (.cacheWrite (cr.blake3 bytes) bytes)
          pure (.ok ())
      | .error e => putAttempts slot bytes n (some e)

/-- `put_pack`. -/
def putPack (slot : RescueSlot) (bytes : Bytes) : Behaviour PackEvent (Except (List String) Unit) :=
  putAttempts cr cached slot bytes maxAttempts none

/-- `rescue_pack`: what the gateway does not have may be among the packs rebuilt locally. -/
def rescuePack (packHash : PackHash) (localPackMap : LocalPackMap) :
    Behaviour PackEvent (Except (List String) Unit) := do
  match ← getPack cr cached packHash with
  | .ok bytes =>
      return withContext ("PUT pack " ++ hexEncode packHash.toList)
        (← putPack cr cached .pack bytes)
  | .error gatewayErr =>
      match localPackMap[packHash]? with
      | some localBytes =>
          return withContext
            ("PUT reconstructed pack " ++ hexEncode packHash.toList ++ " (from local clone)")
            (← putPack cr cached .pack localBytes)
      | none =>
          return withContext ("GET pack " ++ hexEncode packHash.toList) (.error gatewayErr)

/-- The task of one chunk in `rescue_chunked`. -/
def rescueChunk (n : UInt32) (i : Nat) (chunkHash : PackHash) :
    Behaviour PackEvent (Except (List String) Unit) := do
  match ← getPack cr cached chunkHash with
  | .error e =>
      return withContext ("GET chunk " ++ toString (i + 1) ++ "/" ++ toString n ++ " (" ++
        hexEncode chunkHash.toList ++ ")") (.error e)
  | .ok bytes =>
      return withContext ("PUT chunk " ++ toString (i + 1) ++ "/" ++ toString n)
        (← putPack cr cached (.chunk i) bytes)

/-- The pool: as many connections as can be opened, and at least one. -/
def openPool : Nat → Nat → Behaviour PackEvent (Except (List String) Nat)
  | 0, opened => pure (.ok opened)
  | n + 1, opened => do
      match ← connect with
      | .ok () => openPool n (opened + 1)
      | .error e =>
          if opened ≠ 0 then pure (.ok opened)
          else pure (.error ["open at least one WS connection for rescue", e])

/-- The end of `rescue_chunked`: the chunks, and then the manifest. -/
def rescueManifest (manifest : ChunkedPackManifestV1) (manifestBytes : Bytes) :
    Behaviour PackEvent (Except (List String) Nat) := do
  match ← Behaviour.tryEach
      (manifest.chunkHashes.mapIdx (rescueChunk cr cached manifest.chunkCount)) with
  | .error e => pure (.error e)
  | .ok results =>
      match ← putPack cr cached .manifest manifestBytes with
      | .error e => return withContext "PUT manifest" (.error e)
      | .ok () => pure (.ok results.length)

/-- `rescue_chunked`: the number of chunks, once they and the manifest are stored. -/
def rescueChunked (parallelism : Nat) (manifestHash : ManifestHash) :
    Behaviour PackEvent (Outcome (List String) Nat) := do
  match ← connect with
  | .error e => pure (.error (.err ["connect to local node", e]))
  | .ok () =>
      match ← getPack cr cached manifestHash with
      | .error e => pure (.error (.err (("GET manifest " ++ hexEncode manifestHash.toList) :: e)))
      | .ok manifestBytes =>
          match ChunkedPackManifestV1.fromBytes cr manifestBytes with
          | .error .panicked => pure (.error .panicked)
          | .error (.err e) => pure (.error (.err ["decode manifest", e.display]))
          | .ok manifest =>
              match ← openPool (min parallelism (max manifest.chunkCount.toNat 1)) 0 with
              | .error e => pure (.error (.err e))
              -- there is no connection to take turns on
              | .ok 0 => pure (.error .panicked)
              | .ok (_ + 1) =>
                  match ← rescueManifest cr cached manifest manifestBytes with
                  | .error e => pure (.error (.err e))
                  | .ok rescued => pure (.ok rescued)

/-- `rescue_one_bundle`. -/
def rescueOneBundle (parallelism : Nat) (bundle : ObjectBundle) (label : String)
    (localPackMap : LocalPackMap) : Behaviour PackEvent (Outcome Empty BundleOutcome) :=
  match bundle with
  | .singlePack packHash _ => do
      match ← connect with
      | .error _ => pure (.ok (.err label "SinglePack" "open per-bundle WS connection"))
      | .ok () =>
          match ← rescuePack cr cached packHash localPackMap with
          | .ok () => pure (.ok (.ok label "SinglePack" 0))
          | .error e => pure (.ok (.err label "SinglePack" (display e)))
  | .chunkedPack manifestHash _ declaredCount => do
      match ← rescueChunked cr cached parallelism manifestHash with
      | .ok n => pure (.ok (.ok label
          ("ChunkedPack, " ++ toString n ++ "/" ++ toString declaredCount ++ " chunks") n))
      | .error (.err e) => pure (.ok (.err label "ChunkedPack" (display e)))
      | .error .panicked => pure (.error .panicked)

end

/-! ## What a log says -/

/-- The PUT that an event sends. -/
def PackEvent.put? : PackEvent → Option (RescueSlot × Bytes)
  | .put slot bytes => some (slot, bytes)
  | .connect _ | .cacheRead _ _ | .cacheWrite _ _ | .get _ | .got _ _ | .putDone _ _ _ => none

/-- The PUTs of a log. -/
def puts (log : List PackEvent) : List (RescueSlot × Bytes) := log.filterMap PackEvent.put?

@[simp] theorem puts_nil : puts [] = [] := rfl

@[simp] theorem puts_append (log log' : List PackEvent) :
    puts (log ++ log') = puts log ++ puts log' := List.filterMap_append

theorem mem_puts {log : List PackEvent} {p : RescueSlot × Bytes} :
    p ∈ puts log ↔ .put p.1 p.2 ∈ log := by
  rw [puts, List.mem_filterMap]
  constructor
  · rintro ⟨e, he, hp⟩
    cases e with
    | put slot bytes =>
        cases hp
        exact he
    | connect | cacheRead | cacheWrite | get | got | putDone => cases hp
  · intro h
    exact ⟨_, h, rfl⟩

/-- A PUT of bytes of this hash was confirmed. -/
def Stored (cr : Crypto) (log : List PackEvent) (slot : RescueSlot) (hash : PackHash) : Prop :=
  ∃ bytes, cr.blake3 bytes = hash ∧ .putDone slot bytes (.ok ()) ∈ log

/-- The bytes are those of the manifest. -/
structure Decodes (cr : Crypto) (hash : ManifestHash) (bytes : Bytes) (m : ChunkedPackManifestV1) :
    Prop where
  hash_eq : cr.blake3 bytes = hash
  decoded : ChunkedPackManifestV1.fromBytes cr bytes = .ok m

/-- The PUTs of a chunked pack: chunks that the manifest names, and the manifest itself when
they are stored. -/
structure CarefulChunks (cr : Crypto) (mbytes : Bytes) (m : ChunkedPackManifestV1)
    (log : List PackEvent) : Prop where
  puts : ∀ p ∈ puts log, p = (.manifest, mbytes) ∨
    ∃ i, p.1 = .chunk i ∧ m.chunkHashes[i]? = some (cr.blake3 p.2)
  order : ∀ before bytes after, log = before ++ .put .manifest bytes :: after →
    ∀ i hash, m.chunkHashes[i]? = some hash → Stored cr before (.chunk i) hash

/-- What may be put for a bundle. -/
def Careful (cr : Crypto) (log : List PackEvent) : ObjectBundle → Prop
  | .singlePack hash _ => ∀ p ∈ puts log, p.1 = .pack ∧ cr.blake3 p.2 = hash
  | .chunkedPack hash _ _ => puts log = [] ∨
      ∃ mbytes m, Decodes cr hash mbytes m ∧ CarefulChunks cr mbytes m log

/-- All that makes up the bundle is stored; `n` is the number of its chunks. -/
def Restored (cr : Crypto) (log : List PackEvent) (n : Nat) : ObjectBundle → Prop
  | .singlePack hash _ => n = 0 ∧ Stored cr log .pack hash
  | .chunkedPack hash _ _ => ∃ mbytes m, Decodes cr hash mbytes m ∧
      n = m.chunkHashes.length ∧
      (∀ i chunkHash, m.chunkHashes[i]? = some chunkHash → Stored cr log (.chunk i) chunkHash) ∧
      .putDone .manifest mbytes (.ok ()) ∈ log

theorem Stored.mono {cr : Crypto} {log log' : List PackEvent} {slot : RescueSlot}
    {hash : PackHash} (h : Stored cr log slot hash) (hsub : log ⊆ log') :
    Stored cr log' slot hash := by
  obtain ⟨bytes, hbytes, hmem⟩ := h
  exact ⟨bytes, hbytes, hsub hmem⟩

/-! ## One pack -/

section

variable {cr : Crypto} {cached : Bool}

theorem meets_connect : Behaviour.Meets connect fun log _ => puts log = [] :=
  Behaviour.meets_observe rfl fun _ _ _ => rfl

/-- A write of the cache is no PUT. -/
theorem meets_cacheWrite (hash : PackHash) (bytes : Bytes) {α : Type} (a : α) :
    Behaviour.Meets (do
      if cached then .emit (.cacheWrite hash bytes)
      pure a) fun log r => puts log = [] ∧ (r = none ∨ r = some a) := by
  have hpure : Behaviour.Meets (pure a : Behaviour PackEvent α)
      fun log r => puts log = [] ∧ (r = none ∨ r = some a) :=
    Behaviour.meets_pure ⟨rfl, .inl rfl⟩ ⟨rfl, .inr rfl⟩
  cases cached with
  | false => exact hpure
  | true =>
      refine Behaviour.Meets.bind (P := fun log _ => puts log = [])
        (Behaviour.meets_observe rfl fun _ _ _ => rfl) (fun log h => ⟨h, .inl rfl⟩) ?_
      intro log u h
      refine hpure.mono fun log' r h' => ⟨?_, h'.2⟩
      rw [puts_append, h, h'.1]
      rfl

/-- What is got has the hash that was asked for, and nothing is put. -/
def Got (cr : Crypto) (hash : PackHash) (log : List PackEvent)
    (r : Option (Except (List String) Bytes)) : Prop :=
  puts log = [] ∧ ∀ bytes, r = some (.ok bytes) → cr.blake3 bytes = hash

theorem meets_fetchPack (hash : PackHash) :
    Behaviour.Meets (fetchPack cr cached hash) (Got cr hash) := by
  refine Behaviour.Meets.bind (P := fun log _ => puts log = [])
    (Behaviour.meets_call rfl rfl fun _ _ _ => rfl) (fun log h => ⟨h, fun bytes hr => by cases hr⟩) ?_
  intro log answer hlog
  cases hcheck : checkFetched cr hash answer with
  | error e =>
      refine Behaviour.meets_pure ⟨?_, fun bytes hr => by cases hr⟩ ⟨?_, fun bytes hr => by cases hr⟩
      · rw [puts_append, hlog]
        rfl
      · rw [puts_append, hlog]
        rfl
  | ok bytes =>
      refine (meets_cacheWrite hash bytes _).mono fun log' r h => ⟨?_, fun bytes' hr => ?_⟩
      · rw [puts_append, hlog, h.1]
        rfl
      · rcases h.2 with hn | hs
        · rw [hn] at hr
          cases hr
        · rw [hs] at hr
          cases hr
          exact (of_checkFetched hcheck).2

/-- **A GET** brings bytes of the hash, or fails. -/
theorem meets_getPack (hash : PackHash) :
    Behaviour.Meets (getPack cr cached hash) (Got cr hash) := by
  have hread : Behaviour.Meets (readCache cached hash) fun log _ => puts log = [] := by
    cases cached with
    | false => exact Behaviour.meets_pure rfl rfl
    | true => exact Behaviour.meets_observe rfl fun _ _ _ => rfl
  refine hread.bind (fun log h => ⟨h, fun bytes hr => by cases hr⟩) fun log found hlog => ?_
  have hfetch : Behaviour.Meets (fetchPack cr cached hash) fun log' r => Got cr hash (log ++ log') r :=
    (meets_fetchPack hash).mono fun log' r h => ⟨by rw [puts_append, hlog, h.1]; rfl, h.2⟩
  cases found with
  | none => exact hfetch
  | some bytes =>
      change Behaviour.Meets (if cr.blake3 bytes = hash then _ else _) _
      split
      · next heq =>
          refine Behaviour.meets_pure ⟨by rw [puts_append, hlog]; rfl, fun _ hr => by cases hr⟩
            ⟨by rw [puts_append, hlog]; rfl, fun bytes' hr => ?_⟩
          cases hr
          exact heq
      · exact hfetch

/-- Nothing else is put, and success means that the PUT was confirmed. -/
def Put (slot : RescueSlot) (bytes : Bytes) (log : List PackEvent)
    (r : Option (Except (List String) Unit)) : Prop :=
  (∀ p ∈ puts log, p = (slot, bytes)) ∧
    (r = some (.ok ()) → .putDone slot bytes (.ok ()) ∈ log)

theorem meets_putAttempts (slot : RescueSlot) (bytes : Bytes) :
    ∀ (n : Nat) (lastErr : Option String),
      Behaviour.Meets (putAttempts cr cached slot bytes n lastErr) (Put slot bytes) := by
  intro n
  induction n with
  | zero =>
      intro lastErr
      exact Behaviour.meets_pure ⟨fun p hp => absurd hp List.not_mem_nil, fun hr => by cases hr⟩
        ⟨fun p hp => absurd hp List.not_mem_nil, fun hr => by cases hr⟩
  | succ n ih =>
      intro lastErr
      refine Behaviour.Meets.bind (P := fun log (r : Option (Except String Unit)) =>
          (∀ p ∈ puts log, p = (slot, bytes)) ∧
            ∀ a, r = some a → .putDone slot bytes a ∈ log) ?_
        (fun log h => ⟨h.1, fun hr => by cases hr⟩) ?_
      · refine Behaviour.meets_call ⟨fun p hp => absurd hp List.not_mem_nil, fun a hr => by cases hr⟩
          ⟨fun p hp => List.mem_singleton.mp hp, fun a hr => by cases hr⟩ fun a r hr =>
            ⟨fun p hp => List.mem_singleton.mp hp, fun a' ha' => ?_⟩
        rcases hr with rfl | rfl
        · cases ha'
        · cases ha'
          exact List.mem_cons_of_mem _ List.mem_cons_self
      · intro log answer hlog
        cases answer with
        | ok u =>
            refine (meets_cacheWrite _ _ _).mono fun log' r h => ⟨fun p hp => ?_, fun hr => ?_⟩
            · rw [puts_append, h.1, List.append_nil] at hp
              exact hlog.1 p hp
            · exact List.mem_append_left _ (hlog.2 _ rfl)
        | error e =>
            refine (ih (some e)).mono fun log' r h => ⟨fun p hp => ?_, fun hr => ?_⟩
            · rw [puts_append] at hp
              exact (List.mem_append.mp hp).elim (hlog.1 p) (h.1 p)
            · exact List.mem_append_right _ (h.2 hr)

/-- **A PUT**, with its attempts. -/
theorem meets_putPack (slot : RescueSlot) (bytes : Bytes) :
    Behaviour.Meets (putPack cr cached slot bytes) (Put slot bytes) :=
  meets_putAttempts slot bytes maxAttempts none

end

/-! ## Resending -/

/-- One pack, got and put again. -/
def Resent (cr : Crypto) (slot : RescueSlot) (hash : PackHash) (log : List PackEvent)
    (r : Option (Except (List String) Unit)) : Prop :=
  (∀ p ∈ puts log, p.1 = slot ∧ cr.blake3 p.2 = hash) ∧ (r = some (.ok ()) → Stored cr log slot hash)

section

variable {cr : Crypto} {cached : Bool}

theorem withContext_eq_ok {α : Type} {msg : String} {r : Except (List String) α} {a : α} :
    withContext msg r = .ok a ↔ r = .ok a := by
  cases r with
  | ok b => exact Iff.rfl
  | error e => exact ⟨nofun, nofun⟩

/-- What is quiet so far may still be resent. -/
theorem Resent.quiet {slot : RescueSlot} {hash : PackHash} {log : List PackEvent}
    {r : Option (Except (List String) Unit)} (hlog : puts log = []) (hr : r ≠ some (.ok ())) :
    Resent cr slot hash log r := by
  refine ⟨fun p hp => ?_, fun h => absurd h hr⟩
  rw [hlog] at hp
  exact absurd hp List.not_mem_nil

/-- A PUT after a quiet log resends the pack, if the bytes are right. -/
theorem meets_resend (msg : String) (slot : RescueSlot) {hash : PackHash} {bytes : Bytes}
    {log : List PackEvent} (hlog : puts log = []) (hbytes : cr.blake3 bytes = hash) :
    Behaviour.Meets (do return withContext msg (← putPack cr cached slot bytes))
      fun log' r => Resent cr slot hash (log ++ log') r := by
  have hputs : ∀ {log' : List PackEvent}, (∀ p ∈ puts log', p = (slot, bytes)) →
      ∀ p ∈ puts (log ++ log'), p.1 = slot ∧ cr.blake3 p.2 = hash := by
    intro log' h p hp
    rw [puts_append, hlog] at hp
    rw [h p hp]
    exact ⟨rfl, hbytes⟩
  refine (meets_putPack slot bytes).bind (fun log' h => ⟨hputs h.1, fun hr => by cases hr⟩) ?_
  intro log' r h
  refine Behaviour.meets_pure ?_ ?_
  · rw [List.append_nil]
    exact ⟨hputs h.1, fun hr => by cases hr⟩
  · rw [List.append_nil]
    refine ⟨hputs h.1, fun hr => ⟨bytes, hbytes, List.mem_append_right _ (h.2 ?_)⟩⟩
    rw [withContext_eq_ok.mp (Option.some.inj hr)]

/-- **A single pack.** -/
theorem meets_rescuePack {hash : PackHash} {localPackMap : LocalPackMap}
    (hmap : ∀ bytes, localPackMap[hash]? = some bytes → cr.blake3 bytes = hash) :
    Behaviour.Meets (rescuePack cr cached hash localPackMap) (Resent cr .pack hash) := by
  refine (meets_getPack hash).bind (fun log h => .quiet h.1 (Option.some_ne_none _).symm) ?_
  intro log r hlog
  cases r with
  | ok bytes => exact meets_resend _ _ hlog.1 (hlog.2 bytes rfl)
  | error e =>
      cases hlocal : localPackMap[hash]? with
      | some bytes =>
          exact meets_resend _ _ hlog.1 (hmap bytes hlocal)
      | none =>
          refine Behaviour.meets_pure ?_ ?_
          · rw [List.append_nil]
            exact .quiet hlog.1 (Option.some_ne_none _).symm
          · rw [List.append_nil]
            exact .quiet hlog.1 fun h => by cases h

/-- **A chunk.** -/
theorem meets_rescueChunk (n : UInt32) (i : Nat) (hash : PackHash) :
    Behaviour.Meets (rescueChunk cr cached n i hash) (Resent cr (.chunk i) hash) := by
  refine (meets_getPack hash).bind (fun log h => .quiet h.1 (Option.some_ne_none _).symm) ?_
  intro log r hlog
  cases r with
  | ok bytes => exact meets_resend _ _ hlog.1 (hlog.2 bytes rfl)
  | error e =>
      refine Behaviour.meets_pure ?_ ?_
      · rw [List.append_nil]
        exact .quiet hlog.1 (Option.some_ne_none _).symm
      · rw [List.append_nil]
        exact .quiet hlog.1 fun h => by cases h

theorem meets_openPool : ∀ n opened : Nat,
    Behaviour.Meets (openPool n opened) fun log _ => puts log = [] := by
  intro n
  induction n with
  | zero =>
      intro opened
      exact Behaviour.meets_pure rfl rfl
  | succ n ih =>
      intro opened
      refine meets_connect.bind (fun log h => h) fun log answer hlog => ?_
      cases answer with
      | ok u =>
          refine (ih (opened + 1)).mono fun log' r h => ?_
          rw [puts_append, hlog, h]
          rfl
      | error e =>
          change Behaviour.Meets (if opened ≠ 0 then _ else _) _
          split
          · refine Behaviour.meets_pure ?_ ?_ <;> rwa [List.append_nil]
          · refine Behaviour.meets_pure ?_ ?_ <;> rwa [List.append_nil]

/-! ## A chunked pack -/

/-- What is behind a quiet beginning. -/
theorem split_of_notMem {α : Type} {a : α} {l₁ l₂ before after : List α} (hn : a ∉ l₁)
    (h : l₁ ++ l₂ = before ++ a :: after) : ∃ l, before = l₁ ++ l ∧ l₂ = l ++ a :: after := by
  rcases List.append_eq_append_iff.mp h with ⟨l, hb, hl⟩ | ⟨l, hb, hl⟩
  · exact ⟨l, hb, hl⟩
  · cases l with
    | nil => exact ⟨[], by rw [hb, List.append_nil, List.append_nil], hl.symm⟩
    | cons b l =>
        obtain ⟨rfl, -⟩ := List.cons.inj hl
        exact absurd (hb ▸ List.mem_append_right _ List.mem_cons_self) hn

variable {mbytes : Bytes} {m : ChunkedPackManifestV1} {log log' : List PackEvent}

theorem not_put_of_quiet {slot : RescueSlot} {bytes : Bytes} (h : puts log = []) :
    .put slot bytes ∉ log := by
  intro hmem
  have hp := (mem_puts (p := (slot, bytes))).mpr hmem
  rw [h] at hp
  exact List.not_mem_nil hp

/-- A quiet beginning does not matter. -/
theorem CarefulChunks.prepend (hlog : rescue.puts log = []) (h : CarefulChunks cr mbytes m log') :
    CarefulChunks cr mbytes m (log ++ log') where
  puts p hp := by
    rw [puts_append, hlog] at hp
    exact h.puts p hp
  order before bytes after heq i hash hi := by
    obtain ⟨l, rfl, hl⟩ := split_of_notMem (not_put_of_quiet hlog) heq
    exact (h.order l bytes after hl i hash hi).mono (List.subset_append_right _ _)

/-- What `rescue_chunked` does once it has the manifest. -/
def ChunksResent (cr : Crypto) (mbytes : Bytes) (m : ChunkedPackManifestV1) (log : List PackEvent)
    (r : Option (Except (List String) Nat)) : Prop :=
  CarefulChunks cr mbytes m log ∧ ∀ n, r = some (.ok n) → n = m.chunkHashes.length ∧
    (∀ i hash, m.chunkHashes[i]? = some hash → Stored cr log (.chunk i) hash) ∧
    .putDone .manifest mbytes (.ok ()) ∈ log

/-- As long as only chunks are put, the order is right. -/
theorem CarefulChunks.of_chunks (h : ∀ p ∈ rescue.puts log, ∃ i, p.1 = .chunk i ∧
    m.chunkHashes[i]? = some (cr.blake3 p.2)) : CarefulChunks cr mbytes m log where
  puts p hp := .inr (h p hp)
  order before bytes after heq := by
    have hmem : .put .manifest bytes ∈ log := heq ▸ List.mem_append_right _ List.mem_cons_self
    obtain ⟨i, hi, -⟩ := h (.manifest, bytes) (mem_puts.mpr hmem)
    cases hi

/-- What the task of a chunk may do. -/
def ChunkResent (cr : Crypto) (m : ChunkedPackManifestV1) (i : Nat) (log : List PackEvent)
    (r : Option (Except (List String) Unit)) : Prop :=
  ∃ hash, m.chunkHashes[i]? = some hash ∧ Resent cr (.chunk i) hash log r

theorem meets_chunkTasks (cr : Crypto) (cached : Bool) (m : ChunkedPackManifestV1) (i : Nat)
    (task : Behaviour PackEvent (Except (List String) Unit))
    (htask : (m.chunkHashes.mapIdx (rescueChunk cr cached m.chunkCount))[i]? = some task) :
    Behaviour.Meets task (ChunkResent cr m i) := by
  rw [List.getElem?_mapIdx] at htask
  obtain ⟨hash, hhash, rfl⟩ := Option.map_eq_some_iff.mp htask
  exact (meets_rescueChunk m.chunkCount i hash).mono fun log r h => ⟨hash, hhash, h⟩

section

variable {n : Nat} {parts : List (Behaviour.Part PackEvent (List String) Unit)}

/-- Together the tasks of the chunks put only chunks. -/
theorem carefulChunks_of_parts (h : Behaviour.Parts (ChunkResent cr m) n log parts) :
    (∀ bytes, .put .manifest bytes ∉ log) ∧ CarefulChunks cr mbytes m log := by
  have hputs : ∀ p ∈ rescue.puts log, ∃ i, p.1 = .chunk i ∧
      m.chunkHashes[i]? = some (cr.blake3 p.2) := by
    intro p hp
    obtain ⟨part, hpart, hmem⟩ := (h.mem_iff _).mp (mem_puts.mp hp)
    obtain ⟨i, hi⟩ := List.mem_iff_getElem?.mp hpart
    obtain ⟨hash, hhash, hresent⟩ := h.spec i part hi
    obtain ⟨hslot, hbytes⟩ := hresent.1 p (mem_puts.mpr hmem)
    exact ⟨i, hslot, hbytes ▸ hhash⟩
  refine ⟨fun bytes hmem => ?_, .of_chunks hputs⟩
  obtain ⟨i, hi, -⟩ := hputs (.manifest, bytes) (mem_puts.mpr hmem)
  cases hi

/-- Where every task has returned, every chunk is stored. -/
theorem stored_of_parts (h : Behaviour.Parts (ChunkResent cr m) m.chunkHashes.length log parts)
    (hok : ∀ part ∈ parts, ∃ u, part.2 = some (.ok u)) {i : Nat} {hash : PackHash}
    (hi : m.chunkHashes[i]? = some hash) : Stored cr log (.chunk i) hash := by
  have hlt : i < parts.length := by
    rw [h.length]
    exact (List.getElem?_eq_some_iff.mp hi).1
  have hpart := List.getElem?_eq_getElem hlt
  obtain ⟨hash', hhash', hresent⟩ := h.spec i _ hpart
  cases hi.symm.trans hhash'
  obtain ⟨u, hu⟩ := hok _ (List.mem_of_getElem? hpart)
  exact (hresent.2 hu).mono fun e he => (h.mem_iff e).mpr ⟨_, List.mem_of_getElem? hpart, he⟩

end

/-- Behind chunks that are stored the manifest may be put. -/
theorem CarefulChunks.append_manifest (h : CarefulChunks cr mbytes m log)
    (hnone : ∀ bytes, .put .manifest bytes ∉ log)
    (hstored : ∀ i hash, m.chunkHashes[i]? = some hash → Stored cr log (.chunk i) hash)
    (hlog' : ∀ p ∈ rescue.puts log', p = (.manifest, mbytes)) :
    CarefulChunks cr mbytes m (log ++ log') where
  puts p hp := by
    rw [puts_append] at hp
    exact (List.mem_append.mp hp).elim (h.puts p) fun hp => .inl (hlog' p hp)
  order before bytes after heq i hash hi := by
    obtain ⟨l, rfl, -⟩ := split_of_notMem (hnone bytes) heq
    exact (hstored i hash hi).mono (List.subset_append_left _ _)

/-- **The manifest is put last**, when all chunks are stored. -/
theorem meets_rescueManifest (cr : Crypto) (cached : Bool) (m : ChunkedPackManifestV1)
    (mbytes : Bytes) :
    Behaviour.Meets (rescueManifest cr cached m mbytes) (ChunksResent cr mbytes m) := by
  refine (Behaviour.meets_tryEach (meets_chunkTasks cr cached m)).bind
    (fun log h => ⟨(carefulChunks_of_parts h.choose_spec.1).2, fun n hr => by cases hr⟩) ?_
  rintro log r ⟨parts, hparts, hdone⟩
  rw [List.length_mapIdx] at hparts hdone
  obtain ⟨hnone, hchunks⟩ : (∀ bytes, .put .manifest bytes ∉ log) ∧ CarefulChunks cr mbytes m log :=
    carefulChunks_of_parts hparts
  cases r with
  | error e =>
      have hquiet : ChunksResent cr mbytes m (log ++ []) none := by
        rw [List.append_nil]
        exact ⟨hchunks, fun n hr => by cases hr⟩
      exact Behaviour.meets_pure hquiet ⟨hquiet.1, fun n hr => by cases hr⟩
  | ok results =>
      obtain ⟨hlen, hok⟩ := hdone results rfl
      have hstored : ∀ i hash, m.chunkHashes[i]? = some hash → Stored cr log (.chunk i) hash :=
        fun _ _ => stored_of_parts hparts hok
      refine (meets_putPack .manifest mbytes).bind
        (fun log' h => ⟨hchunks.append_manifest hnone hstored h.1, fun n hr => by cases hr⟩) ?_
      intro log' r h
      have hcareful : CarefulChunks cr mbytes m (log ++ (log' ++ [])) := by
        rw [List.append_nil]
        exact hchunks.append_manifest hnone hstored h.1
      cases r with
      | error e =>
          exact Behaviour.meets_pure ⟨hcareful, fun n hr => by cases hr⟩
            ⟨hcareful, fun n hr => by cases hr⟩
      | ok u =>
          refine Behaviour.meets_pure ⟨hcareful, fun n hr => by cases hr⟩
            ⟨hcareful, fun n hr => ?_⟩
          cases hr
          rw [List.append_nil]
          refine ⟨hlen, fun i hash hi => ?_, List.mem_append_right _ (h.2 rfl)⟩
          exact (hstored i hash hi).mono (List.subset_append_left _ _)

end

/-! ## A bundle -/

section

variable {cr : Crypto} {cached : Bool}

/-- What `rescue_chunked` may do. -/
def ChunkedResent (cr : Crypto) (hash : ManifestHash) (log : List PackEvent)
    (r : Option (Outcome (List String) Nat)) : Prop :=
  ∀ total count, Careful cr log (.chunkedPack hash total count) ∧
    ∀ n, r = some (.ok n) → Restored cr log n (.chunkedPack hash total count)

theorem ChunkedResent.quiet {hash : ManifestHash} {log : List PackEvent}
    {r : Option (Outcome (List String) Nat)} (hlog : puts log = []) (hr : ∀ n, r ≠ some (.ok n)) :
    ChunkedResent cr hash log r :=
  fun _ _ => ⟨.inl hlog, fun n h => absurd h (hr n)⟩

/-- A program that gives up after a quiet log. -/
theorem meets_giveUp {hash : ManifestHash} {log : List PackEvent} (hlog : puts log = [])
    (e : Fault (List String)) :
    Behaviour.Meets (pure (.error e) : Behaviour PackEvent (Outcome (List String) Nat))
      fun log' r => ChunkedResent cr hash (log ++ log') r := by
  have hquiet : puts (log ++ []) = [] := by rwa [List.append_nil]
  exact Behaviour.meets_pure (.quiet hquiet fun n h => by cases h) (.quiet hquiet fun n h => by cases h)

/-- **A chunked pack.** -/
theorem meets_rescueChunked (parallelism : Nat) (hash : ManifestHash) :
    Behaviour.Meets (rescueChunked cr cached parallelism hash) (ChunkedResent cr hash) := by
  refine meets_connect.bind (fun log h => .quiet h fun n hr => by cases hr) fun log answer hlog => ?_
  cases answer with
  | error e => exact meets_giveUp hlog _
  | ok u =>
  refine (meets_getPack hash).bind (fun log' h => .quiet (by rw [puts_append, hlog, h.1]; rfl)
    fun n hr => by cases hr) fun log' got hgot => ?_
  have hquiet : puts (log ++ log') = [] := by rw [puts_append, hlog, hgot.1]; rfl
  simp only [← List.append_assoc]
  cases got with
  | error e => exact meets_giveUp hquiet _
  | ok mbytes =>
  cases hm : ChunkedPackManifestV1.fromBytes cr mbytes with
  | error e =>
      cases e with
      | panicked =>
          simp only [hm]
          exact meets_giveUp hquiet _
      | err e =>
          simp only [hm]
          exact meets_giveUp hquiet _
  | ok m =>
  simp only [hm]
  refine (meets_openPool _ 0).bind (fun log'' h => .quiet (by rw [puts_append, hquiet, h]; rfl)
    fun n hr => by cases hr) fun log'' pool hpool => ?_
  have hquiet' : puts (log ++ log' ++ log'') = [] := by rw [puts_append, hquiet, hpool]; rfl
  simp only [← List.append_assoc]
  cases pool with
  | error e => exact meets_giveUp hquiet' _
  | ok conns =>
  cases conns with
  | zero => exact meets_giveUp hquiet' _
  | succ conns =>
  have hdecodes : Decodes cr hash mbytes m := ⟨hgot.2 mbytes rfl, hm⟩
  refine (meets_rescueManifest cr cached m mbytes).bind
    (fun log₃ h => fun total count => ⟨.inr ⟨mbytes, m, hdecodes, h.1.prepend hquiet'⟩,
      fun n hr => by cases hr⟩) fun log₃ r h => ?_
  have hcareful : ∀ total count, Careful cr (log ++ log' ++ log'' ++ log₃ ++ [])
      (.chunkedPack hash total count) := by
    intro total count
    rw [List.append_nil]
    exact .inr ⟨mbytes, m, hdecodes, h.1.prepend hquiet'⟩
  simp only [← List.append_assoc]
  cases r with
  | error e =>
      exact Behaviour.meets_pure (fun total count => ⟨hcareful total count, fun n hr => by cases hr⟩)
        fun total count => ⟨hcareful total count, fun n hr => by cases hr⟩
  | ok n =>
      refine Behaviour.meets_pure (fun total count => ⟨hcareful total count, fun n hr => by cases hr⟩)
        fun total count => ⟨hcareful total count, fun n' hr => ?_⟩
      cases hr
      obtain ⟨hn, hchunks, hmanifest⟩ := h.2 n rfl
      rw [List.append_nil]
      refine ⟨mbytes, m, hdecodes, hn, fun i chunkHash hi => ?_, List.mem_append_right _ hmanifest⟩
      exact (hchunks i chunkHash hi).mono (List.subset_append_right _ _)

/-- What the task of a bundle may do. -/
def BundleResent (cr : Crypto) (bundle : ObjectBundle) (log : List PackEvent)
    (r : Option (Outcome Empty BundleOutcome)) : Prop :=
  Careful cr log bundle ∧
    ∀ label kindLabel n, r = some (.ok (.ok label kindLabel n)) → Restored cr log n bundle

theorem careful_of_quiet {log : List PackEvent} (hlog : puts log = []) :
    ∀ bundle : ObjectBundle, Careful cr log bundle
  | .singlePack hash size => by
      intro p hp
      rw [hlog] at hp
      exact absurd hp List.not_mem_nil
  | .chunkedPack hash total count => .inl hlog

/-- The packs of the map have the hashes they are kept under. -/
def Keyed (cr : Crypto) (localPackMap : LocalPackMap) : Prop :=
  ∀ hash bytes, localPackMap[hash]? = some bytes → cr.blake3 bytes = hash

/-- **A bundle**: only its packs are put, and when the task reports success all of it is
stored. -/
theorem meets_rescueOneBundle {localPackMap : LocalPackMap} (hmap : Keyed cr localPackMap)
    (parallelism : Nat) (bundle : ObjectBundle) (label : String) :
    Behaviour.Meets (rescueOneBundle cr cached parallelism bundle label localPackMap)
      (BundleResent cr bundle) := by
  cases bundle with
  | singlePack hash size =>
      refine meets_connect.bind (fun log h => ⟨careful_of_quiet h _, fun _ _ _ hr => by cases hr⟩) ?_
      intro log answer hlog
      cases answer with
      | error e =>
          have hquiet : puts (log ++ []) = [] := by rwa [List.append_nil]
          exact Behaviour.meets_pure ⟨careful_of_quiet hquiet _, fun _ _ _ hr => by cases hr⟩
            ⟨careful_of_quiet hquiet _, fun _ _ _ hr => by cases hr⟩
      | ok u =>
          have hputs : ∀ {log' r}, Resent cr .pack hash log' r →
              Careful cr (log ++ log') (.singlePack hash size) := by
            intro log' r h p hp
            rw [puts_append, hlog] at hp
            exact h.1 p hp
          refine (meets_rescuePack (hmap hash)).bind
            (fun log' h => ⟨hputs h, fun _ _ _ hr => by cases hr⟩) fun log' r h => ?_
          have hcareful : Careful cr (log ++ (log' ++ [])) (.singlePack hash size) := by
            rw [List.append_nil]
            exact hputs h
          cases r with
          | error e =>
              exact Behaviour.meets_pure ⟨hcareful, fun _ _ _ hr => by cases hr⟩
                ⟨hcareful, fun _ _ _ hr => by cases hr⟩
          | ok u =>
              refine Behaviour.meets_pure ⟨hcareful, fun _ _ _ hr => by cases hr⟩
                ⟨hcareful, fun _ _ _ hr => ?_⟩
              cases hr
              rw [List.append_nil]
              exact ⟨rfl, (h.2 rfl).mono (List.subset_append_right _ _)⟩
  | chunkedPack hash total count =>
      refine (meets_rescueChunked parallelism hash).bind
        (fun log h => ⟨(h total count).1, fun _ _ _ hr => by cases hr⟩) fun log r h => ?_
      have hcareful : Careful cr (log ++ []) (.chunkedPack hash total count) := by
        rw [List.append_nil]
        exact (h total count).1
      cases r with
      | error e =>
          cases e with
          | panicked =>
              exact Behaviour.meets_pure ⟨hcareful, fun _ _ _ hr => by cases hr⟩
                ⟨hcareful, fun _ _ _ hr => by cases hr⟩
          | err e =>
              exact Behaviour.meets_pure ⟨hcareful, fun _ _ _ hr => by cases hr⟩
                ⟨hcareful, fun _ _ _ hr => by cases hr⟩
      | ok n =>
          refine Behaviour.meets_pure ⟨hcareful, fun _ _ _ hr => by cases hr⟩
            ⟨hcareful, fun _ _ n' hr => ?_⟩
          cases hr
          rw [List.append_nil]
          exact (h total count).2 n rfl

end

/-! ## Event by event

A task has done event by event what it has done, so it can be stopped at any point of a log. -/

section

variable (cr : Crypto) (cached : Bool)

theorem prefixClosed_connect : connect.PrefixClosed := Behaviour.prefixClosed_observe _

theorem prefixClosed_cacheWrite (hash : PackHash) (bytes : Bytes) {α : Type} (a : α) :
    Behaviour.PrefixClosed (ε := PackEvent) (do
      if cached then .emit (.cacheWrite hash bytes)
      pure a) := by
  cases cached with
  | false => exact Behaviour.prefixClosed_pure a
  | true => exact (Behaviour.prefixClosed_observe _).bind fun _ => Behaviour.prefixClosed_pure a

theorem prefixClosed_fetchPack (hash : PackHash) : (fetchPack cr cached hash).PrefixClosed := by
  refine (Behaviour.prefixClosed_call _ _).bind fun answer => ?_
  cases checkFetched cr hash answer with
  | error e => exact Behaviour.prefixClosed_pure _
  | ok bytes => exact prefixClosed_cacheWrite cached hash bytes _

theorem prefixClosed_getPack (hash : PackHash) : (getPack cr cached hash).PrefixClosed := by
  have hread : (readCache cached hash).PrefixClosed := by
    cases cached with
    | false => exact Behaviour.prefixClosed_pure none
    | true => exact Behaviour.prefixClosed_observe _
  refine hread.bind fun found => ?_
  cases found with
  | none => exact prefixClosed_fetchPack cr cached hash
  | some bytes =>
      change Behaviour.PrefixClosed (if cr.blake3 bytes = hash then _ else _)
      split
      · exact Behaviour.prefixClosed_pure _
      · exact prefixClosed_fetchPack cr cached hash

theorem prefixClosed_putAttempts (slot : RescueSlot) (bytes : Bytes) (n : Nat) :
    ∀ lastErr, (putAttempts cr cached slot bytes n lastErr).PrefixClosed := by
  induction n with
  | zero => exact fun _ => Behaviour.prefixClosed_pure _
  | succ n ih =>
      refine fun _ => (Behaviour.prefixClosed_call _ _).bind fun answer => ?_
      cases answer with
      | ok u => exact prefixClosed_cacheWrite cached _ bytes _
      | error e => exact ih (some e)

theorem prefixClosed_resend (msg : String) (slot : RescueSlot) (bytes : Bytes) :
    Behaviour.PrefixClosed (do return withContext msg (← putPack cr cached slot bytes)) :=
  (prefixClosed_putAttempts cr cached slot bytes _ _).bind fun _ => Behaviour.prefixClosed_pure _

theorem prefixClosed_rescuePack (hash : PackHash) (localPackMap : LocalPackMap) :
    (rescuePack cr cached hash localPackMap).PrefixClosed := by
  refine (prefixClosed_getPack cr cached hash).bind fun got => ?_
  cases got with
  | ok bytes => exact prefixClosed_resend cr cached _ .pack bytes
  | error e =>
      cases localPackMap[hash]? with
      | some bytes => exact prefixClosed_resend cr cached _ .pack bytes
      | none => exact Behaviour.prefixClosed_pure _

theorem prefixClosed_rescueChunk (n : UInt32) (i : Nat) (hash : PackHash) :
    (rescueChunk cr cached n i hash).PrefixClosed := by
  refine (prefixClosed_getPack cr cached hash).bind fun got => ?_
  cases got with
  | ok bytes => exact prefixClosed_resend cr cached _ (.chunk i) bytes
  | error e => exact Behaviour.prefixClosed_pure _

theorem prefixClosed_openPool (n : Nat) : ∀ opened, (openPool n opened).PrefixClosed := by
  induction n with
  | zero => exact fun _ => Behaviour.prefixClosed_pure _
  | succ n ih =>
      refine fun opened => prefixClosed_connect.bind fun answer => ?_
      cases answer with
      | ok u => exact ih (opened + 1)
      | error e =>
          change Behaviour.PrefixClosed (if opened ≠ 0 then _ else _)
          split <;> exact Behaviour.prefixClosed_pure _

theorem prefixClosed_rescueManifest (m : ChunkedPackManifestV1) (mbytes : Bytes) :
    (rescueManifest cr cached m mbytes).PrefixClosed := by
  refine (Behaviour.prefixClosed_tryEach fun task htask => ?_).bind fun results => ?_
  · obtain ⟨i, hi, rfl⟩ := List.mem_mapIdx.mp htask
    exact prefixClosed_rescueChunk cr cached _ i _
  · cases results with
    | error e => exact Behaviour.prefixClosed_pure _
    | ok results =>
        refine (prefixClosed_putAttempts cr cached .manifest mbytes _ _).bind fun answer => ?_
        cases answer <;> exact Behaviour.prefixClosed_pure _

theorem prefixClosed_rescueChunked (parallelism : Nat) (hash : ManifestHash) :
    (rescueChunked cr cached parallelism hash).PrefixClosed := by
  refine prefixClosed_connect.bind fun answer => ?_
  cases answer with
  | error e => exact Behaviour.prefixClosed_pure _
  | ok u =>
  refine (prefixClosed_getPack cr cached hash).bind fun got => ?_
  cases got with
  | error e => exact Behaviour.prefixClosed_pure _
  | ok mbytes =>
  cases hm : ChunkedPackManifestV1.fromBytes cr mbytes with
  | error e =>
      simp only [hm]
      cases e <;> exact Behaviour.prefixClosed_pure _
  | ok m =>
  simp only [hm]
  refine (prefixClosed_openPool _ 0).bind fun pool => ?_
  cases pool with
  | error e => exact Behaviour.prefixClosed_pure _
  | ok conns =>
  cases conns with
  | zero => exact Behaviour.prefixClosed_pure _
  | succ conns =>
  refine (prefixClosed_rescueManifest cr cached m mbytes).bind fun r => ?_
  cases r <;> exact Behaviour.prefixClosed_pure _

theorem prefixClosed_rescueOneBundle (parallelism : Nat) (bundle : ObjectBundle) (label : String)
    (localPackMap : LocalPackMap) :
    (rescueOneBundle cr cached parallelism bundle label localPackMap).PrefixClosed := by
  cases bundle with
  | singlePack hash size =>
      refine prefixClosed_connect.bind fun answer => ?_
      cases answer with
      | error e => exact Behaviour.prefixClosed_pure _
      | ok u =>
          refine (prefixClosed_rescuePack cr cached hash localPackMap).bind fun r => ?_
          cases r <;> exact Behaviour.prefixClosed_pure _
  | chunkedPack hash total count =>
      refine (prefixClosed_rescueChunked cr cached parallelism hash).bind fun r => ?_
      cases r with
      | ok n => exact Behaviour.prefixClosed_pure _
      | error e => cases e <;> exact Behaviour.prefixClosed_pure _

end

/-! ## A host that answers -/

/-- The events of a pack that is got and put again. -/
def resent (cr : Crypto) (slot : RescueSlot) (bytes : Bytes) : List PackEvent :=
  [.get (cr.blake3 bytes), .got (cr.blake3 bytes) (.ok bytes), .put slot bytes,
    .putDone slot bytes (.ok ())]

section

variable (cr : Crypto)

theorem getPack_returns (bytes : Bytes) : getPack cr false (cr.blake3 bytes)
    [.get (cr.blake3 bytes), .got (cr.blake3 bytes) (.ok bytes)] (some (.ok bytes)) := by
  have hcheck : checkFetched cr (cr.blake3 bytes) (.ok bytes) = .ok bytes := if_neg (not_not.mpr rfl)
  refine Behaviour.Then.of_pure (Behaviour.Then.of_call (a := (.ok bytes : GetResult)) ?_)
  rw [hcheck]
  exact .done

theorem putPack_returns (slot : RescueSlot) (bytes : Bytes) : putPack cr false slot bytes
    [.put slot bytes, .putDone slot bytes (.ok ())] (some (.ok ())) :=
  Behaviour.Then.of_call (a := (.ok () : Except String Unit)) .done

theorem resend_returns (msg : String) (slot : RescueSlot) (bytes : Bytes) :
    (do return withContext msg (← putPack cr false slot bytes) :
      Behaviour PackEvent (Except (List String) Unit))
      [.put slot bytes, .putDone slot bytes (.ok ())] (some (.ok ())) :=
  .second (putPack_returns cr slot bytes) .done

theorem rescuePack_returns (bytes : Bytes) (localPackMap : LocalPackMap) :
    rescuePack cr false (cr.blake3 bytes) localPackMap (resent cr .pack bytes) (some (.ok ())) :=
  .second (getPack_returns cr bytes) (resend_returns cr _ .pack bytes)

theorem rescueChunk_returns (n : UInt32) (i : Nat) (bytes : Bytes) :
    rescueChunk cr false n i (cr.blake3 bytes) (resent cr (.chunk i) bytes) (some (.ok ())) :=
  .second (getPack_returns cr bytes) (resend_returns cr _ (.chunk i) bytes)

theorem openPool_returns (n : Nat) : ∀ opened,
    openPool n opened (List.replicate n (.connect (.ok ()))) (some (.ok (opened + n))) := by
  induction n with
  | zero => exact fun opened => .done
  | succ n ih =>
      intro opened
      refine Behaviour.Then.of_observe (a := (.ok () : Except String Unit)) ?_
      rw [Nat.add_comm n 1, ← Nat.add_assoc]
      exact ih (opened + 1)

/-- The chunks in any order, and then the manifest. -/
theorem rescueManifest_returns {m : ChunkedPackManifestV1} {chunks : List Bytes}
    (hm : m.chunkHashes = chunks.map cr.blake3) {log : List PackEvent}
    (hlog : Behaviour.Interleaves (chunks.mapIdx fun i => resent cr (.chunk i)) log)
    (mbytes : Bytes) : rescueManifest cr false m mbytes
      (log ++ [.put .manifest mbytes, .putDone .manifest mbytes (.ok ())])
      (some (.ok chunks.length)) := by
  have hran : Behaviour.SideBySide (m.chunkHashes.mapIdx (rescueChunk cr false m.chunkCount))
      (chunks.mapIdx fun i bytes => (resent cr (.chunk i) bytes, some (.ok ()))) log := by
    constructor
    · rw [List.forall₂_iff_get, hm]
      refine ⟨by simp, fun i h₁ h₂ => ?_⟩
      simp only [List.get_eq_getElem, List.getElem_mapIdx, List.getElem_map]
      exact rescueChunk_returns cr _ i _
    · have hlogs : (chunks.mapIdx fun i bytes => (resent cr (.chunk i) bytes,
          (some (.ok ()) : Option (Except (List String) Unit)))).map (·.1) =
          chunks.mapIdx fun i => resent cr (.chunk i) := by
        apply List.ext_getElem <;> simp
      rwa [hlogs]
  obtain ⟨results, hlen, hdone⟩ : ∃ results : List Unit, results.length = chunks.length ∧
      Behaviour.tryEach (m.chunkHashes.mapIdx (rescueChunk cr false m.chunkCount)) log
        (some (.ok results)) := by
    refine ⟨List.replicate chunks.length (), List.length_replicate, .done hran ?_⟩
    apply List.ext_getElem <;> simp
  rw [← hlen]
  exact .second hdone (.second (putPack_returns cr .manifest mbytes) .done)

/-- The events of a chunked pack whose chunks come and go as `log` says. -/
def resentChunked (connections : Nat) (mbytes : Bytes) (log : List PackEvent) : List PackEvent :=
  .connect (.ok ()) :: ([.get (cr.blake3 mbytes), .got (cr.blake3 mbytes) (.ok mbytes)] ++
    (List.replicate connections (.connect (.ok ())) ++
      (log ++ [.put .manifest mbytes, .putDone .manifest mbytes (.ok ())])))

theorem rescueChunked_returns {m : ChunkedPackManifestV1} {mbytes : Bytes} {chunks : List Bytes}
    (hdecoded : ChunkedPackManifestV1.fromBytes cr mbytes = .ok m)
    (hm : m.chunkHashes = chunks.map cr.blake3) {log : List PackEvent}
    (hlog : Behaviour.Interleaves (chunks.mapIdx fun i => resent cr (.chunk i)) log)
    {parallelism : Nat} (hp : parallelism ≠ 0) :
    rescueChunked cr false parallelism (cr.blake3 mbytes)
      (resentChunked cr (min parallelism (max m.chunkCount.toNat 1)) mbytes log)
      (some (.ok chunks.length)) := by
  have hpool := openPool_returns (min parallelism (max m.chunkCount.toNat 1)) 0
  -- one connection at least
  obtain ⟨k, hk⟩ : ∃ k, 0 + min parallelism (max m.chunkCount.toNat 1) = k + 1 :=
    Nat.exists_eq_succ_of_ne_zero (by omega)
  rw [hk] at hpool
  refine Behaviour.Then.of_observe (a := (.ok () : Except String Unit)) ?_
  refine .second (getPack_returns cr mbytes) ?_
  simp only [hdecoded]
  exact .second hpool (.of_returned (rescueManifest_returns cr hm hlog mbytes) .done)

theorem rescueOneBundle_returns_single (bytes : Bytes) (size : UInt64) (parallelism : Nat)
    (label : String) (localPackMap : LocalPackMap) :
    rescueOneBundle cr false parallelism (.singlePack (cr.blake3 bytes) size) label localPackMap
      (.connect (.ok ()) :: resent cr .pack bytes) (some (.ok (.ok label "SinglePack" 0))) := by
  refine Behaviour.Then.of_observe (a := (.ok () : Except String Unit)) ?_
  exact .of_returned (rescuePack_returns cr bytes localPackMap) .done

theorem rescueOneBundle_returns_chunked {m : ChunkedPackManifestV1} {mbytes : Bytes}
    {chunks : List Bytes} (hdecoded : ChunkedPackManifestV1.fromBytes cr mbytes = .ok m)
    (hm : m.chunkHashes = chunks.map cr.blake3) {log : List PackEvent}
    (hlog : Behaviour.Interleaves (chunks.mapIdx fun i => resent cr (.chunk i)) log)
    {parallelism : Nat} (hp : parallelism ≠ 0) (total : UInt64) (count : UInt32) (label : String)
    (localPackMap : LocalPackMap) :
    rescueOneBundle cr false parallelism (.chunkedPack (cr.blake3 mbytes) total count) label
      localPackMap (resentChunked cr (min parallelism (max m.chunkCount.toNat 1)) mbytes log)
      (some (.ok (.ok label ("ChunkedPack, " ++ toString chunks.length ++ "/" ++ toString count ++
        " chunks") chunks.length))) :=
  .of_returned (rescueChunked_returns cr hdecoded hm hlog hp) .done

end

end rescue

end FreenetGit
