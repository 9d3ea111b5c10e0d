/-
# `FreenetGit.Migration` — a repo moves to the key of a new contract

The address of a repo is the hash of its contract's code and parameters, so a
release with another contract has the repo under another key.  `fetch_repo_state`
asks its own key and the older ones, and sends what it finds at an older key to its
own.  Anyone may do so at any time: many readers, each over several answers of the
network, copies that arrive late or twice, and writers in between.  As long as nobody
begins to use an older release than the newest in use, a reader gets no less than the
repo held when the reading began, and nothing that was ever held is lost
(`migration_keeps`).
-/
import FreenetGit.Exchange
import FreenetGit.Legacy
import FreenetGit.Lib.Generations
import FreenetGit.Lib.Run

namespace FreenetGit

open Lib

/-! ## Addresses -/

/-- `ContractInstanceId::from_params_and_code`. -/
def contractInstanceId (cr : Crypto) (params code : Bytes) : ContractId :=
  cr.blake3 ((cr.blake3 code).toList ++ params)

/-- `RepoParams::to_bytes` of a prefix; the encoding fails only beyond 2^64 bytes. -/
def paramsBytesOf (prefixStr : String) : Bytes := (RepoParams.toBytes ⟨prefixStr⟩).getD []

/-- `repo_contract_id_from_prefix`. -/
def repoContractIdFromPrefix (cr : Crypto) (repoWasm : Bytes) (prefixStr : String) : ContractId :=
  contractInstanceId cr (paramsBytesOf prefixStr) repoWasm

/-! ## Reading a repo -/

/-- `HelperEnv`: what reading the state needs. -/
structure HelperEnv where
  prefixStr : String
  contractId : ContractId

/-- `HelperEnv::from_env`, with the contract of the release. -/
def HelperEnv.fromEnv (cr : Crypto) (prefixStr : String) (repoWasm : Bytes) : HelperEnv :=
  ⟨prefixStr, repoContractIdFromPrefix cr repoWasm prefixStr⟩

/-- What `put_contract` sends. -/
structure PutRequest where
  wasm : Bytes
  params : Bytes
  state : Bytes
deriving DecidableEq

/-- The key the host derives. -/
def PutRequest.key (cr : Crypto) (put : PutRequest) : ContractId :=
  contractInstanceId cr put.params put.wasm

/-- `fetch_repo_state_from_registry`, with the PUT it makes; what becomes of the PUT is
reported and has no other effect. -/
def fetchRepoStateFromRegistry (cr : Crypto) (env : HelperEnv) (repoWasm : Bytes)
    (registry : List ContractLineageEntry) (timeout : String) (answers : Nat → Nat → GetResult) :
    Except String RepoState × Option PutRequest :=
  let paramsBytes := paramsBytesOf env.prefixStr
  match (getStateWithLegacyFallback cr env.contractId paramsBytes registry timeout answers).1 with
  | .error e => (.error e, none)
  | .ok found =>
      let put := match found.source with
        | .current => none
        | .legacy _ _ => some ⟨repoWasm, paramsBytes, found.state⟩
      match RepoState.fromBytes cr found.state with
      | .error e => (.error e.display, put)
      | .ok state => (.ok state, put)

section

variable {cr : Crypto} {env : HelperEnv} {repoWasm : Bytes} {registry : List ContractLineageEntry}
  {timeout : String} {answers : Nat → Nat → GetResult} {s : RepoState} {put : PutRequest}

theorem fetch_eq_ok
    (h : (fetchRepoStateFromRegistry cr env repoWasm registry timeout answers).1 = .ok s) :
    ∃ found, (getStateWithLegacyFallback cr env.contractId (paramsBytesOf env.prefixStr) registry
      timeout answers).1 = .ok found ∧ RepoState.fromBytes cr found.state = .ok s := by
  unfold fetchRepoStateFromRegistry at h
  dsimp only at h
  split at h
  · cases h
  · next found hfound =>
      refine ⟨found, hfound, ?_⟩
      split at h
      · cases h
      · next state hstate =>
          cases h
          exact hstate

/-- A PUT carries what was found at an older key, under the contract of the reader. -/
theorem fetch_put
    (h : (fetchRepoStateFromRegistry cr env repoWasm registry timeout answers).2 = some put) :
    ∃ found, (getStateWithLegacyFallback cr env.contractId (paramsBytesOf env.prefixStr) registry
      timeout answers).1 = .ok found ∧
      put = ⟨repoWasm, paramsBytesOf env.prefixStr, found.state⟩ := by
  unfold fetchRepoStateFromRegistry at h
  dsimp only at h
  split at h
  · cases h
  · next found hfound =>
      refine ⟨found, hfound, ?_⟩
      cases hsource : found.source with
      | current =>
          rw [hsource] at h
          split at h <;> cases h
      | legacy idx id =>
          rw [hsource] at h
          split at h <;> exact (Option.some.inj h).symm

/-- A pass that finds something is the last one. -/
theorem fallback_of_first {currentId : ContractId} {paramsBytes : Bytes} {found : LegacyAwareGet}
    (timeout : String)
    (h : (probeAllKeys cr currentId paramsBytes registry (answers 1)).1 = .ok found) :
    (getStateWithLegacyFallback cr currentId paramsBytes registry timeout answers).1 =
      .ok found := by
  rw [getStateWithLegacyFallback, fallbackFrom]
  split
  · next heq =>
      rw [heq] at h
      cases h
      rfl
  · next heq =>
      rw [heq] at h
      cases h

/-- What was found was found in one pass. -/
theorem fallback_found {currentId : ContractId} {paramsBytes : Bytes} {found : LegacyAwareGet}
    (h : (getStateWithLegacyFallback cr currentId paramsBytes registry timeout answers).1 =
      .ok found) :
    ∃ n, PassEnd (probeKeys cr currentId paramsBytes registry) (.ok found)
      (probeAllKeys cr currentId paramsBytes registry (answers n)).2 := by
  have hend := @fallbackEnd cr currentId paramsBytes registry timeout answers 1 (by decide)
  rw [← getStateWithLegacyFallback] at hend
  obtain ⟨last, -, hresult⟩ := hend.last
  refine ⟨1 + last, ?_⟩
  rw [← mapError_eq_ok.mp (hresult.symm.trans h)]
  exact exists_passEnd (1 + last)

/-- The keys are asked in their order. -/
theorem PassEnd.key_eq {keys : List ProbeKey}
    {result : Except (List (String × ProbeOutcome)) LegacyAwareGet} {pass : List Probe} {i : Nat}
    {p : Probe} (h : PassEnd keys result pass) (hi : pass[i]? = some p) :
    keys[i]? = some p.key := by
  have hkeys : pass.map (·.key) <+: keys := by
    cases h with
    | found | unknown =>
        rw [List.map_append]
        exact (List.prefix_append_right_inj _).mpr ⟨_, rfl⟩
    | absent => exact List.prefix_rfl
  have hkey : (pass.map (·.key))[i]? = some p.key := by rw [List.getElem?_map, hi, Option.map_some]
  obtain ⟨rest, rfl⟩ := hkeys
  obtain ⟨hlt, -⟩ := List.getElem?_eq_some_iff.mp hkey
  exact (List.getElem?_append_left hlt).trans hkey

end

/-! ## States by what they preserve -/

/-- `s ≤ t` when `t` holds everything that `s` holds. -/
instance RepoState.preserves : Preorder RepoState where
  le := Preserves
  le_refl := Preserves.refl
  le_trans _ _ _ := Preserves.trans

theorem le_mergeState_left (s t : RepoState) : s ≤ mergeState s t := preserves_mergeState s t

/-- A merge holds no more than what both hold. -/
theorem mergeState_le {s t c : RepoState} (hs : s ≤ c) (ht : t ≤ c) : mergeState s t ≤ c where
  owner := by
    have howner : c.owner = s.owner := Preserves.owner hs
    exact howner
  slot σ e he := by
    rw [mergeState_at] at he
    rcases σ.picker.pickOpt_eq_some he with he | he
    · exact Preserves.slot hs σ e he
    · exact Preserves.slot ht σ e he
  record id r hr := by
    rw [mergeState_objectIndex, Option.or_eq_some_iff] at hr
    rcases hr with hr | ⟨-, hr⟩
    · exact Preserves.record hs id r hr
    · exact Preserves.record ht id r hr

/-! ## Releases -/

/-- A release: its generation in the registry of later ones, and its contract. -/
structure Release where
  generation : UInt32
  wasm : Bytes

/-- `CONTRACT_LINEAGE` of a release: the releases before it. -/
def lineageOf (cr : Crypto) (releases : List Release) (v : Nat) : List ContractLineageEntry :=
  (releases.take v).map fun r => ⟨r.generation, cr.blake3 r.wasm⟩

namespace migration

/-- What the hosts hold, and the newest release that has been used. -/
structure Snapshot where
  stored : ContractId → Option Bytes
  version : Nat

/-- Everything so far, and the PUTs that were sent. -/
structure World where
  past : List Snapshot
  now : Snapshot
  sent : List PutRequest

def World.all (w : World) : List Snapshot := w.past ++ [w.now]

def World.move (w : World) (q : Snapshot) : World := ⟨w.all, q, w.sent⟩

def Snapshot.store (q : Snapshot) (key : ContractId) (bytes : Bytes) (version : Nat) : Snapshot :=
  ⟨Function.update q.stored key (some bytes), version⟩

inductive Event where
  /-- A release comes into use. -/
  | adopt (v : Nat)
  /-- A client of a release updates the repo. -/
  | write (v : Nat) (data : List UpdateData)
  /-- A client of a release has read the repo, beginning at one of the moments so far. -/
  | fetch (v : Nat) (since : Nat) (answers : Nat → Nat → GetResult)
  /-- A PUT arrives. -/
  | land (put : PutRequest)

/-- The network answers what it holds, or that it does not know. -/
structure Honest (held : Option Bytes) (answer : GetResult) : Prop where
  absent : answer.Absent → held = none
  state : ∀ bytes, answer = .ok bytes → bytes ≠ [] → held = some bytes

variable (cr : Crypto) (prefixStr : String) (releases : List Release) (timeout : String)

def keyOf (r : Release) : ContractId := repoContractIdFromPrefix cr r.wasm prefixStr

/-- A client of a release that reads the repo. -/
def fetchOf (v : Nat) (r : Release) (answers : Nat → Nat → GetResult) :
    Except String RepoState × Option PutRequest :=
  fetchRepoStateFromRegistry cr (HelperEnv.fromEnv cr prefixStr r.wasm) r.wasm
    (lineageOf cr releases v) timeout answers

/-- The keys it asks. -/
def keysOf (v : Nat) (r : Release) : List ProbeKey :=
  probeKeys cr (keyOf cr prefixStr r) (paramsBytesOf prefixStr) (lineageOf cr releases v)

/-- Nobody writes or begins to read with an older release than the newest in use.  Each answer
to a reader is that of some moment since it began, and it may end at any time.  A host that has
no state stores what is PUT if the contract accepts it, and one that has a state lets the
contract update it, or keeps it. -/
inductive Step : World → Event → World → Prop where
  | adopt {w : World} {v : Nat} (hv : w.now.version ≤ v) (hr : v < releases.length) :
      Step w (.adopt v) (w.move { w.now with version := v })
  | write {w : World} {v : Nat} {r : Release} {data : List UpdateData} {sb sb' : Bytes}
      (hv : w.now.version ≤ v) (hr : releases[v]? = some r)
      (hheld : w.now.stored (keyOf cr prefixStr r) = some sb)
      (hcall : contract.updateState cr (paramsBytesOf prefixStr) sb data = .ok sb') :
      Step w (.write v data) (w.move (w.now.store (keyOf cr prefixStr r) sb' v))
  | fetch {w : World} {before after : List Snapshot} {p : Snapshot} {v : Nat} {r : Release}
      {answers : Nat → Nat → GetResult} (hr : releases[v]? = some r)
      (hall : w.all = before ++ p :: after) (hbegun : p.version = v)
      (hhonest : ∀ n i key, (keysOf cr prefixStr releases v r)[i]? = some key →
        ∃ q ∈ p :: after, Honest (q.stored key.id) (answers n i)) :
      Step w (.fetch v before.length answers)
        { w with sent := w.sent ++ (fetchOf cr prefixStr releases timeout v r answers).2.toList }
  | store {w : World} {put : PutRequest} (hsent : put ∈ w.sent)
      (hnone : w.now.stored (put.key cr) = none)
      (hcall : contract.validateState cr put.params put.state = .ok ()) :
      Step w (.land put) (w.move (w.now.store (put.key cr) put.state w.now.version))
  | update {w : World} {put : PutRequest} {sb sb' : Bytes} (hsent : put ∈ w.sent)
      (hheld : w.now.stored (put.key cr) = some sb)
      (hcall : contract.updateState cr put.params sb [.state put.state] = .ok sb') :
      Step w (.land put) (w.move (w.now.store (put.key cr) sb' w.now.version))

/-- A repo that was created with one release. -/
def World.start (v : Nat) (key : ContractId) (bytes : Bytes) : World :=
  ⟨[], ⟨fun id => if id = key then some bytes else none, v⟩, []⟩

/-! ## The states under the keys -/

/-- What a snapshot holds for each release. -/
def Snapshot.states (p : Snapshot) : Generations.Snapshot RepoState where
  held v := do
    let r ← releases[v]?
    let sb ← p.stored (keyOf cr prefixStr r)
    (RepoState.fromBytes cr sb).toOption
  version := p.version

/-- What is under the keys can be read. -/
def Snapshot.Readable (p : Snapshot) : Prop :=
  ∀ (v : Nat) (r : Release) (sb : Bytes), releases[v]? = some r →
    p.stored (keyOf cr prefixStr r) = some sb → ∃ s, RepoState.fromBytes cr sb = .ok s

/-- A PUT for a release. -/
structure PutFor (put : PutRequest) (v : Nat) (t : RepoState) : Prop where
  release : ∃ r, releases[v]? = some r ∧ put.wasm = r.wasm
  params : put.params = paramsBytesOf prefixStr
  state : RepoState.fromBytes cr put.state = .ok t

variable {cr : Crypto} {prefixStr : String} {releases : List Release} {timeout : String}
  {p q : Snapshot} {v k : Nat} {r : Release} {sb : Bytes} {s t : RepoState} {put : PutRequest}
  {key : ContractId}

theorem toOption_eq_some {ε α : Type} {x : Except ε α} {a : α} :
    x.toOption = some a ↔ x = .ok a := by
  cases x <;> simp [Except.toOption]

@[simp] theorem store_self : (p.store key sb k).stored key = some sb := Function.update_self ..

theorem store_of_ne {key' : ContractId} (h : key' ≠ key) :
    (p.store key sb k).stored key' = p.stored key' := Function.update_of_ne h ..

theorem states_held_eq_some : (p.states cr prefixStr releases).held v = some s ↔
    ∃ r sb, releases[v]? = some r ∧ p.stored (keyOf cr prefixStr r) = some sb ∧
      RepoState.fromBytes cr sb = .ok s := by
  simp only [Snapshot.states, Option.bind_eq_bind, Option.bind_eq_some_iff, toOption_eq_some]
  constructor
  · rintro ⟨r, hr, sb, hsb, hs⟩
    exact ⟨r, sb, hr, hsb, hs⟩
  · rintro ⟨r, sb, hr, hsb, hs⟩
    exact ⟨r, hr, sb, hsb, hs⟩

theorem states_held_eq_none (hp : p.Readable cr prefixStr releases) (hr : releases[v]? = some r) :
    (p.states cr prefixStr releases).held v = none ↔ p.stored (keyOf cr prefixStr r) = none := by
  constructor
  · intro hnone
    cases hsb : p.stored (keyOf cr prefixStr r) with
    | none => rfl
    | some sb =>
        obtain ⟨s, hs⟩ := hp v r sb hr hsb
        rw [states_held_eq_some.mpr ⟨r, sb, hr, hsb, hs⟩] at hnone
        cases hnone
  · intro hnone
    rw [Option.eq_none_iff_forall_ne_some]
    intro s hs
    obtain ⟨r', sb, hr', hsb, -⟩ := states_held_eq_some.mp hs
    obtain rfl := Option.some.inj (hr.symm.trans hr')
    rw [hnone] at hsb
    cases hsb

/-- The keys of the releases differ. -/
def KeysDiffer (cr : Crypto) (prefixStr : String) (releases : List Release) : Prop :=
  (releases.map (keyOf cr prefixStr)).Nodup

theorem KeysDiffer.inj (h : KeysDiffer cr prefixStr releases) {j : Nat} {r' : Release}
    (hr : releases[v]? = some r) (hr' : releases[j]? = some r')
    (hkey : keyOf cr prefixStr r = keyOf cr prefixStr r') : v = j := by
  have hv : (releases.map (keyOf cr prefixStr))[v]? = some (keyOf cr prefixStr r) := by
    rw [List.getElem?_map, hr, Option.map_some]
  have hj : (releases.map (keyOf cr prefixStr))[j]? = some (keyOf cr prefixStr r) := by
    rw [List.getElem?_map, hr', Option.map_some, hkey]
  obtain ⟨hlt, -⟩ := List.getElem?_eq_some_iff.mp hv
  exact (List.getElem?_inj hlt h).mp (hv.trans hj.symm)

/-- What is hashed for the keys. -/
def keyInputs (cr : Crypto) (prefixStr : String) (releases : List Release) : Set Bytes :=
  {bs | ∃ r ∈ releases, bs = r.wasm ∨ bs = (cr.blake3 r.wasm).toList ++ paramsBytesOf prefixStr}

/-- A key is that of one contract. -/
theorem keysDiffer (hcr : (keyInputs cr prefixStr releases).InjOn cr.blake3)
    (hwasm : (releases.map (·.wasm)).Nodup) : KeysDiffer cr prefixStr releases := by
  refine (List.nodup_map_iff_inj_on hwasm.of_map).mpr fun r hr r' hr' hkey => ?_
  have hinput := hcr ⟨r, hr, .inr rfl⟩ ⟨r', hr', .inr rfl⟩ hkey
  have hcode := Vector.toList_inj.mp (List.append_cancel_right hinput)
  exact List.inj_on_of_nodup_map hwasm hr hr' (hcr ⟨r, hr, .inl rfl⟩ ⟨r', hr', .inl rfl⟩ hcode)

/-- To store under the key of a release is to put a state there. -/
theorem states_store (hkeys : KeysDiffer cr prefixStr releases) (hr : releases[v]? = some r)
    (hs : RepoState.fromBytes cr sb = .ok s) :
    (p.store (keyOf cr prefixStr r) sb k).states cr prefixStr releases =
      (p.states cr prefixStr releases).put v s k := by
  refine Generations.Snapshot.ext (funext fun j => Option.ext fun t => ?_) rfl
  rw [states_held_eq_some]
  by_cases hj : j = v
  · subst hj
    rw [Generations.Snapshot.put_held_self]
    constructor
    · rintro ⟨r', sb', hr', hsb', ht⟩
      obtain rfl := Option.some.inj (hr.symm.trans hr')
      rw [store_self] at hsb'
      cases hsb'
      rw [hs] at ht
      cases ht
      rfl
    · intro ht
      cases ht
      exact ⟨r, sb, hr, store_self, hs⟩
  · rw [Generations.Snapshot.put_held_of_ne hj, states_held_eq_some]
    refine exists_congr fun r' => exists_congr fun sb' => and_congr_right fun hr' => ?_
    have hne : keyOf cr prefixStr r' ≠ keyOf cr prefixStr r := fun hkey =>
      hj (hkeys.inj hr' hr hkey)
    rw [store_of_ne hne]

/-! ## What a reader finds -/

variable {before after : List Snapshot} {w w' : World} {ev : Event}
  {answers : Nat → Nat → GetResult} {found : LegacyAwareGet}

/-- Older releases have smaller generations. -/
def Ordered (releases : List Release) : Prop :=
  releases.Pairwise fun r r' => r.generation < r'.generation

theorem lineageOf_getElem? {j : Nat} (hr : releases[j]? = some r) (hj : j < v) :
    (lineageOf cr releases v)[j]? = some ⟨r.generation, cr.blake3 r.wasm⟩ := by
  rw [lineageOf, List.getElem?_map, List.getElem?_take_of_lt hj, hr, Option.map_some]

theorem of_lineageOf_getElem? {j : Nat} {entry : ContractLineageEntry}
    (h : (lineageOf cr releases v)[j]? = some entry) :
    j < v ∧ ∃ r, releases[j]? = some r ∧ entry = ⟨r.generation, cr.blake3 r.wasm⟩ := by
  rw [lineageOf, List.getElem?_map, Option.map_eq_some_iff] at h
  obtain ⟨r, hr, rfl⟩ := h
  rw [List.getElem?_take] at hr
  split at hr
  · next hlt => exact ⟨hlt, r, hr, rfl⟩
  · cases hr

/-- Each answer in a pass is that of some moment. -/
def Answered (moments : List Snapshot) (pass : List Probe) : Prop :=
  ∀ probe ∈ pass, ∃ q ∈ moments, Honest (q.stored probe.key.id) probe.result

theorem answered {moments : List Snapshot} {n : Nat}
    {result : Except (List (String × ProbeOutcome)) LegacyAwareGet}
    (hhonest : ∀ n i key, (keysOf cr prefixStr releases v r)[i]? = some key →
      ∃ q ∈ moments, Honest (q.stored key.id) (answers n i))
    (hpass : PassEnd (keysOf cr prefixStr releases v r) result
      (probeAllKeys cr (keyOf cr prefixStr r) (paramsBytesOf prefixStr)
        (lineageOf cr releases v) (answers n)).2) :
    Answered moments (probeAllKeys cr (keyOf cr prefixStr r) (paramsBytesOf prefixStr)
      (lineageOf cr releases v) (answers n)).2 := by
  intro probe hprobe
  obtain ⟨i, hi⟩ := List.mem_iff_getElem?.mp hprobe
  obtain ⟨q, hq, hhon⟩ := hhonest n i probe.key (hpass.key_eq hi)
  have hresult := result_probeFrom _ _ _ _ _ hi
  rw [List.length_nil, Nat.zero_add] at hresult
  exact ⟨q, hq, hresult ▸ hhon⟩

theorem Answered.asked {moments : List Snapshot} {pass : List Probe} {id : ContractId}
    {source : GetSource} {result : GetResult} (h : Answered moments pass)
    (hasked : Asked pass id source result) : ∃ q ∈ moments, Honest (q.stored id) result := by
  obtain ⟨probe, hprobe, rfl, -, rfl⟩ := hasked
  exact h probe hprobe

theorem Answered.hit {moments : List Snapshot} {pass : List Probe} {state : Bytes}
    {source : GetSource} (h : Answered moments pass)
    (hreadable : ∀ q ∈ moments, q.Readable cr prefixStr releases) (hr : releases[v]? = some r)
    (hne : state ≠ []) (hasked : Asked pass (keyOf cr prefixStr r) source (.ok state)) :
    ∃ t, RepoState.fromBytes cr state = .ok t ∧
      ∃ q ∈ moments, (q.states cr prefixStr releases).held v = some t := by
  obtain ⟨q, hq, hhon⟩ := h.asked hasked
  have hheld := hhon.state state rfl hne
  obtain ⟨t, ht⟩ := hreadable q hq v r state hr hheld
  exact ⟨t, ht, q, hq, states_held_eq_some.mpr ⟨r, state, hr, hheld, ht⟩⟩

theorem Answered.missed {moments : List Snapshot} {pass : List Probe} {source : GetSource}
    (h : Answered moments pass) (hreadable : ∀ q ∈ moments, q.Readable cr prefixStr releases)
    (hr : releases[v]? = some r) (hmissed : Missed pass (keyOf cr prefixStr r) source) :
    ∃ q ∈ moments, (q.states cr prefixStr releases).held v = none := by
  obtain ⟨result, hasked, habsent⟩ := hmissed
  obtain ⟨q, hq, hhon⟩ := h.asked hasked
  exact ⟨q, hq, (states_held_eq_none (hreadable q hq) hr).mpr (hhon.absent habsent)⟩

theorem exists_states {P : Generations.Snapshot RepoState → Prop}
    (h : ∃ q ∈ p :: after, P (q.states cr prefixStr releases)) :
    ∃ q ∈ p.states cr prefixStr releases :: after.map (Snapshot.states cr prefixStr releases),
      P q := by
  obtain ⟨q, hq, hP⟩ := h
  rw [← List.map_cons]
  exact ⟨_, List.mem_map_of_mem hq, hP⟩

/-- What a reader finds was there at some moment since it began, and what it did not find was
not there at another. -/
theorem fetch_finds (hgen : Ordered releases) (hr : releases[v]? = some r)
    (hreadable : ∀ q ∈ p :: after, q.Readable cr prefixStr releases) (hbegun : p.version = v)
    (hhonest : ∀ n i key, (keysOf cr prefixStr releases v r)[i]? = some key →
      ∃ q ∈ p :: after, Honest (q.stored key.id) (answers n i))
    (hfound : (getStateWithLegacyFallback cr (keyOf cr prefixStr r) (paramsBytesOf prefixStr)
      (lineageOf cr releases v) timeout answers).1 = .ok found) :
    ∃ t, RepoState.fromBytes cr found.state = .ok t ∧
      Generations.World.Found (p.states cr prefixStr releases)
        (after.map (Snapshot.states cr prefixStr releases)) v t := by
  obtain ⟨n, hpass⟩ := fallback_found hfound
  have hans := answered hhonest hpass
  obtain ⟨state, source⟩ := found
  cases source with
  | current =>
      obtain ⟨hne, hasked⟩ := hpass.hit_current
      obtain ⟨t, ht, hheld⟩ := hans.hit hreadable hr hne hasked
      refine ⟨t, ht, hbegun, v, Nat.le_refl v, exists_states hheld, fun j hlt hle => ?_⟩
      exact absurd hlt (Nat.not_lt_of_le hle)
  | legacy idx id =>
      obtain ⟨hne, entry, hentry, rfl, hasked, hcurrent, hnewer⟩ := hpass.hit_legacy
      obtain ⟨hidx, r', hr', rfl⟩ := of_lineageOf_getElem? hentry
      obtain ⟨t, ht, hheld⟩ := hans.hit hreadable hr' hne hasked
      refine ⟨t, ht, hbegun, idx, hidx.le, exists_states hheld, fun j hlt hle => exists_states ?_⟩
      rcases Nat.lt_or_eq_of_le hle with hjv | rfl
      · obtain ⟨hvlen, -⟩ := List.getElem?_eq_some_iff.mp hr
        obtain ⟨r'', hr''⟩ : ∃ r'', releases[j]? = some r'' :=
          ⟨_, List.getElem?_eq_getElem (hjv.trans hvlen)⟩
        obtain ⟨hidxlen, rfl⟩ := List.getElem?_eq_some_iff.mp hr'
        obtain ⟨hjlen, rfl⟩ := List.getElem?_eq_some_iff.mp hr''
        -- the newer generations were asked before
        have hgenlt := List.pairwise_iff_getElem.mp hgen idx j hidxlen hjlen hlt
        exact hans.missed hreadable hr'' (hnewer j _ (lineageOf_getElem? hr'' hjv) hgenlt)
      · exact hans.missed hreadable hr hcurrent

/-! ## The invariant -/

def World.states (cr : Crypto) (prefixStr : String) (releases : List Release) (w : World)
    (sent : List (Nat × RepoState)) : Generations.World RepoState :=
  ⟨w.past.map (Snapshot.states cr prefixStr releases), w.now.states cr prefixStr releases, sent⟩

theorem World.states_all (sent : List (Nat × RepoState)) :
    (w.states cr prefixStr releases sent).all =
      w.all.map (Snapshot.states cr prefixStr releases) := by
  rw [World.all, List.map_append]
  rfl

theorem World.states_split (sent : List (Nat × RepoState)) (hall : w.all = before ++ p :: after) :
    (w.states cr prefixStr releases sent).all =
      before.map (Snapshot.states cr prefixStr releases) ++ p.states cr prefixStr releases ::
        after.map (Snapshot.states cr prefixStr releases) := by
  rw [World.states_all, hall, List.map_append, List.map_cons]

theorem World.states_move (sent : List (Nat × RepoState)) (q : Snapshot) :
    (w.move q).states cr prefixStr releases sent =
      (w.states cr prefixStr releases sent).move (q.states cr prefixStr releases) := by
  rw [Generations.World.move, World.states_all]
  rfl

/-- The hosts' bytes can be read, the PUTs are those of releases, and the states under the keys
behave as values that move from key to key. -/
structure Inv (cr : Crypto) (prefixStr : String) (releases : List Release) (w : World) : Prop where
  readable : ∀ q ∈ w.all, q.Readable cr prefixStr releases
  moves : ∃ sent, (∀ put ∈ w.sent, ∃ v t, PutFor cr prefixStr releases put v t ∧ (v, t) ∈ sent) ∧
    (w.states cr prefixStr releases sent).Inv

theorem mem_move : q ∈ (w.move p).all ↔ q ∈ w.all ∨ q = p := by
  rw [World.all, List.mem_append, List.mem_singleton]
  rfl

theorem Snapshot.Readable.store (hs : RepoState.fromBytes cr sb = .ok s)
    (h : p.Readable cr prefixStr releases) :
    (p.store (keyOf cr prefixStr r) sb k).Readable cr prefixStr releases := by
  intro j r' sb' hr' hsb'
  by_cases hj : keyOf cr prefixStr r' = keyOf cr prefixStr r
  · rw [hj, store_self] at hsb'
    cases hsb'
    exact ⟨s, hs⟩
  · rw [store_of_ne hj] at hsb'
    exact h j r' sb' hr' hsb'

theorem World.now_mem : w.now ∈ w.all := List.mem_append_right _ (List.mem_singleton_self _)

/-- Something was stored under the key of a release. -/
theorem Inv.stored (hkeys : KeysDiffer cr prefixStr releases) (h : Inv cr prefixStr releases w)
    (hr : releases[v]? = some r) (hs : RepoState.fromBytes cr sb = .ok s)
    (hstep : ∀ sent, (∀ put ∈ w.sent, ∃ v t, PutFor cr prefixStr releases put v t ∧ (v, t) ∈ sent) →
      (w.states cr prefixStr releases sent).Inv →
      Generations.World.Step (w.states cr prefixStr releases sent)
        ((w.states cr prefixStr releases sent).move
          ((w.now.states cr prefixStr releases).put v s k))) :
    Inv cr prefixStr releases (w.move (w.now.store (keyOf cr prefixStr r) sb k)) := by
  obtain ⟨sent, hsent, hinv⟩ := h.moves
  refine ⟨fun q hq => ?_, sent, hsent, ?_⟩
  · rcases mem_move.mp hq with hq | rfl
    · exact h.readable q hq
    · exact (h.readable w.now World.now_mem).store hs
  · rw [World.states_move, states_store hkeys hr hs]
    exact hinv.step (hstep sent hsent hinv)

theorem PutFor.key_eq (h : PutFor cr prefixStr releases put v t) :
    ∃ r, releases[v]? = some r ∧ put.key cr = keyOf cr prefixStr r := by
  obtain ⟨r, hr, hwasm⟩ := h.release
  refine ⟨r, hr, ?_⟩
  rw [PutRequest.key, h.params, hwasm]
  rfl

theorem Inv.fetch_found (hgen : Ordered releases) (h : Inv cr prefixStr releases w)
    (hr : releases[v]? = some r) (hall : w.all = before ++ p :: after) (hbegun : p.version = v)
    (hhonest : ∀ n i key, (keysOf cr prefixStr releases v r)[i]? = some key →
      ∃ q ∈ p :: after, Honest (q.stored key.id) (answers n i))
    (hfound : (getStateWithLegacyFallback cr (keyOf cr prefixStr r) (paramsBytesOf prefixStr)
      (lineageOf cr releases v) timeout answers).1 = .ok found) :
    ∃ t, RepoState.fromBytes cr found.state = .ok t ∧
      Generations.World.Found (p.states cr prefixStr releases)
        (after.map (Snapshot.states cr prefixStr releases)) v t := by
  refine fetch_finds hgen hr (fun q hq => h.readable q ?_) hbegun hhonest hfound
  rw [hall]
  exact List.mem_append_right _ hq

theorem Inv.step (hkeys : KeysDiffer cr prefixStr releases) (hgen : Ordered releases)
    (hp : RepoParams.fromBytes cr (paramsBytesOf prefixStr) = .ok ⟨prefixStr⟩)
    (h : Inv cr prefixStr releases w) (hstep : Step cr prefixStr releases timeout w ev w') :
    Inv cr prefixStr releases w' := by
  cases hstep with
  | @adopt v hv hlt =>
      obtain ⟨sent, hsent, hinv⟩ := h.moves
      refine ⟨fun q hq => ?_, sent, hsent, ?_⟩
      · rcases mem_move.mp hq with hq | rfl
        · exact h.readable q hq
        · exact h.readable w.now World.now_mem
      · rw [World.states_move]
        exact hinv.step (.adopt hv)
  | @write v r data sb sb' hv hr hheld hcall =>
      obtain ⟨s, hs⟩ := h.readable w.now World.now_mem v r sb hr hheld
      obtain ⟨s', hs', hup⟩ := contract.updateState_updates hp hs hcall
      refine h.stored hkeys hr hs' fun sent _ _ => ?_
      exact .write hv (states_held_eq_some.mpr ⟨r, sb, hr, hheld, hs⟩) hup.preserves
  | @fetch before after p v r answers hr hall hbegun hhonest =>
      obtain ⟨sent, hsent, hinv⟩ := h.moves
      cases hput : (fetchOf cr prefixStr releases timeout v r answers).2 with
      | none => exact ⟨h.readable, sent, by simpa using hsent, hinv⟩
      | some put =>
          obtain ⟨found, hfound, rfl⟩ := fetch_put hput
          obtain ⟨t, ht, hfinds⟩ := h.fetch_found hgen hr hall hbegun hhonest hfound
          refine ⟨h.readable, sent ++ [(v, t)], fun put' hput' => ?_, ?_⟩
          · rcases List.mem_append.mp hput' with hput' | hput'
            · obtain ⟨v', t', hfor, hmem⟩ := hsent put' hput'
              exact ⟨v', t', hfor, List.mem_append_left _ hmem⟩
            · rw [List.mem_singleton.mp hput']
              exact ⟨v, t, ⟨⟨r, hr, rfl⟩, rfl, ht⟩,
                List.mem_append_right _ (List.mem_singleton_self _)⟩
          · exact hinv.step (.send (World.states_split sent hall) hfinds)
  | @store put hsent hnone hcall =>
      obtain ⟨sent, hputs, -⟩ := h.moves
      obtain ⟨v, t, hfor, -⟩ := hputs put hsent
      obtain ⟨r, hr, hkey⟩ := hfor.key_eq
      rw [hkey] at hnone ⊢
      refine h.stored hkeys hr hfor.state fun sent hputs _ => ?_
      obtain ⟨v', t', hfor', hmem⟩ := hputs put hsent
      obtain ⟨r', hr', hkey'⟩ := hfor'.key_eq
      obtain rfl : v = v' := hkeys.inj hr hr' (hkey.symm.trans hkey')
      obtain rfl : t = t' := Except.ok.inj (hfor.state.symm.trans hfor'.state)
      exact .arrive hmem ((states_held_eq_none (h.readable w.now World.now_mem) hr).mpr hnone)
  | @update put sb sb' hsent hheld hcall =>
      obtain ⟨sent, hputs, -⟩ := h.moves
      obtain ⟨v, t, hfor, -⟩ := hputs put hsent
      obtain ⟨r, hr, hkey⟩ := hfor.key_eq
      rw [hkey] at hheld ⊢
      obtain ⟨s, hs⟩ := h.readable w.now World.now_mem v r sb hr hheld
      rw [hfor.params] at hcall
      have hmerged := contract.updateState_carried_ok hp hs (.inl rfl) hfor.state hcall
      refine h.stored hkeys hr hmerged fun sent hputs _ => ?_
      obtain ⟨v', t', hfor', hmem⟩ := hputs put hsent
      obtain ⟨r', hr', hkey'⟩ := hfor'.key_eq
      obtain rfl : v = v' := hkeys.inj hr hr' (hkey.symm.trans hkey')
      obtain rfl : t = t' := Except.ok.inj (hfor.state.symm.trans hfor'.state)
      exact .join hmem (states_held_eq_some.mpr ⟨r, sb, hr, hheld, hs⟩) (le_mergeState_left s t)
        fun c => mergeState_le

theorem inv_start (hkeys : KeysDiffer cr prefixStr releases) (hr : releases[v]? = some r)
    (hs : RepoState.fromBytes cr sb = .ok s) :
    Inv cr prefixStr releases (World.start v (keyOf cr prefixStr r) sb) := by
  have hreadable :
      (World.start v (keyOf cr prefixStr r) sb).now.Readable cr prefixStr releases := by
    intro j r' sb' _ hsb'
    have hsb' : (if keyOf cr prefixStr r' = keyOf cr prefixStr r then some sb else none) =
      some sb' := hsb'
    split at hsb'
    · cases hsb'
      exact ⟨s, hs⟩
    · cases hsb'
  refine ⟨fun q hq => ?_, [], fun put hput => absurd hput List.not_mem_nil, ?_⟩
  · rw [List.mem_singleton.mp hq]
    exact hreadable
  · refine Generations.World.Inv.start (k := v) (s := s) ?_ (Nat.le_refl v) fun j hj => ?_
    · exact states_held_eq_some.mpr ⟨r, sb, hr, if_pos rfl, hs⟩
    · rw [Option.eq_none_iff_forall_ne_some]
      intro t ht
      obtain ⟨r', sb', hr', hsb', -⟩ := states_held_eq_some.mp ht
      have hne : keyOf cr prefixStr r' ≠ keyOf cr prefixStr r := fun hkey =>
        hj (hkeys.inj hr' hr hkey)
      cases (if_neg hne).symm.trans hsb'

/-! ## What the invariant says -/

theorem exists_held (hr : r ∈ releases) (hsb : q.stored (keyOf cr prefixStr r) = some sb)
    (hs : RepoState.fromBytes cr sb = .ok s) :
    ∃ j, (q.states cr prefixStr releases).held j = some s := by
  obtain ⟨j, hj⟩ := List.mem_iff_getElem?.mp hr
  exact ⟨j, states_held_eq_some.mpr ⟨r, sb, hj, hsb, hs⟩⟩

/-- What a reader gets preserves what was under the keys before. -/
theorem Inv.fetch_keeps (hgen : Ordered releases) (h : Inv cr prefixStr releases w)
    (hr : releases[v]? = some r) (hall : w.all = before ++ p :: after) (hbegun : p.version = v)
    (hhonest : ∀ n i key, (keysOf cr prefixStr releases v r)[i]? = some key →
      ∃ q ∈ p :: after, Honest (q.stored key.id) (answers n i))
    (hok : (fetchOf cr prefixStr releases timeout v r answers).1 = .ok t)
    (hq : q ∈ before ++ [p]) {r' : Release} (hr' : r' ∈ releases)
    (hsb : q.stored (keyOf cr prefixStr r') = some sb) (hs : RepoState.fromBytes cr sb = .ok s) :
    Preserves s t := by
  obtain ⟨found, hfound, hstate⟩ := fetch_eq_ok hok
  obtain ⟨x, hx, hfinds⟩ := h.fetch_found hgen hr hall hbegun hhonest hfound
  obtain rfl := Except.ok.inj (hstate.symm.trans hx)
  obtain ⟨sent, -, hmoves⟩ := h.moves
  obtain ⟨j, hj⟩ := exists_held hr' hsb hs
  refine hmoves.found_all (World.states_split sent hall) hfinds ?_ hj
  have hmap := List.mem_map_of_mem (f := Snapshot.states cr prefixStr releases) hq
  rwa [List.map_append] at hmap

/-- One key holds everything. -/
theorem Inv.all_kept (h : Inv cr prefixStr releases w) :
    ∃ r ∈ releases, ∃ sb s, w.now.stored (keyOf cr prefixStr r) = some sb ∧
      RepoState.fromBytes cr sb = .ok s ∧
      ∀ q ∈ w.all, ∀ r' ∈ releases, ∀ sb' s', q.stored (keyOf cr prefixStr r') = some sb' →
        RepoState.fromBytes cr sb' = .ok s' → Preserves s' s := by
  obtain ⟨sent, -, hmoves⟩ := h.moves
  obtain ⟨k, s, hk, hall⟩ := hmoves.kept
  obtain ⟨r, sb, hr, hsb, hs⟩ := states_held_eq_some.mp hk
  refine ⟨r, List.mem_of_getElem? hr, sb, s, hsb, hs, ?_⟩
  intro q hq r' hr' sb' s' hsb' hs'
  obtain ⟨j, hj⟩ := exists_held hr' hsb' hs'
  refine hall _ ?_ j s' hj
  rw [World.states_all]
  exact List.mem_map_of_mem hq

end migration

section

open migration

variable {cr : Crypto} {prefixStr : String} {releases : List Release} {timeout : String}
  {v : Nat} {r : Release} {sb : Bytes} {s₀ : RepoState} {w : World}
  {tr : List (Transition World Event)}

/-- **Migration loses nothing.**  In every run a reader gets a state that preserves everything
that was under any release's key when it began reading, or before; and at every moment one of
the keys holds a state that preserves everything that was ever under any of them. -/
theorem migration_keeps (hcr : (keyInputs cr prefixStr releases).InjOn cr.blake3)
    (hwasm : (releases.map (·.wasm)).Nodup) (hgen : Ordered releases)
    (hlen : (utf8 prefixStr).length < 2 ^ 64)
    (hr : releases[v]? = some r) (hs : RepoState.fromBytes cr sb = .ok s₀)
    (hrun : Run (Step cr prefixStr releases timeout)
      (World.start v (keyOf cr prefixStr r) sb) tr w) :
    (∀ t ∈ tr, ∀ v' r' since answers s, t.event = .fetch v' since answers →
      releases[v']? = some r' → (fetchOf cr prefixStr releases timeout v' r' answers).1 = .ok s →
      ∀ q ∈ t.before.all.take (since + 1), ∀ r'' ∈ releases, ∀ sb' s',
        q.stored (keyOf cr prefixStr r'') = some sb' → RepoState.fromBytes cr sb' = .ok s' →
        Preserves s' s) ∧
    ∃ r' ∈ releases, ∃ sb' s', w.now.stored (keyOf cr prefixStr r') = some sb' ∧
      RepoState.fromBytes cr sb' = .ok s' ∧
      ∀ q ∈ w.all, ∀ r'' ∈ releases, ∀ sb'' s'', q.stored (keyOf cr prefixStr r'') = some sb'' →
        RepoState.fromBytes cr sb'' = .ok s'' → Preserves s'' s' := by
  have hkeys := keysDiffer hcr hwasm
  have hp : RepoParams.fromBytes cr (paramsBytesOf prefixStr) = .ok ⟨prefixStr⟩ := by
    obtain ⟨bs, hbs⟩ := bincode.fits_repoParams.mpr hlen
    have hbytes : RepoParams.toBytes ⟨prefixStr⟩ = some bs := hbs
    rw [paramsBytesOf, hbytes]
    exact RepoParams.fromBytes_toBytes hbytes
  have hstart := inv_start hkeys hr hs
  have hstep : ∀ w ev w', Inv cr prefixStr releases w →
      Step cr prefixStr releases timeout w ev w' → Inv cr prefixStr releases w' :=
    fun w ev w' h hs => h.step hkeys hgen hp hs
  constructor
  · intro t ht v' r' since answers s hev hr' hok q hq r'' hr'' sb' s' hsb' hs'
    obtain ⟨hinv, hstep'⟩ := hrun.mem hstart hstep ht
    rw [hev] at hstep'
    generalize t.after = w' at hstep'
    cases hstep' with
    | @fetch before after p _ r₁ _ hr₁ hall hbegun hhonest =>
        obtain rfl := Option.some.inj (hr'.symm.trans hr₁)
        have htake : t.before.all.take (before.length + 1) = before ++ [p] := by
          rw [hall, List.take_length_add_append, List.take_succ_cons, List.take_zero]
        rw [htake] at hq
        exact hinv.fetch_keeps hgen hr' hall hbegun hhonest hok hq hr'' hsb' hs'
  · exact (hrun.invariant hstart hstep).all_kept

end

/-! A push that is under the key of the first release is read by a client of the second one,
and comes to the key of that one. -/

namespace Sample

open migration

def wasm (n : UInt8) : Bytes := n :: List.replicate 31 0

def firstRelease : Release := ⟨1, wasm 1⟩

def secondRelease : Release := ⟨2, wasm 2⟩

def twoReleases : List Release := [firstRelease, secondRelease]

def firstKey : ContractId := keyOf raceCrypto "1111" firstRelease

def secondKey : ContractId := keyOf raceCrypto "1111" secondRelease

/-- Nothing is under the key of the second release. -/
def onlyFirst : Nat → Nat → GetResult := fun _ i =>
  if i = 0 then .error "contract not found on the network" else .ok (bytesOf raceB)

def carried : PutRequest := ⟨wasm 2, paramsBytesOf "1111", bytesOf raceB⟩

def createdWorld : World := World.start 0 firstKey (bytesOf raceB)

def adoptedWorld : World := createdWorld.move { createdWorld.now with version := 1 }

def fetchedWorld : World := { adoptedWorld with sent := [carried] }

def carriedOver : World := fetchedWorld.move (fetchedWorld.now.store secondKey (bytesOf raceB) 1)

def migrationRun : List (Transition World Event) :=
  [⟨createdWorld, .adopt 1, adoptedWorld⟩, ⟨adoptedWorld, .fetch 1 1 onlyFirst, fetchedWorld⟩,
    ⟨fetchedWorld, .land carried, carriedOver⟩]

theorem firstPass : (probeAllKeys raceCrypto secondKey (paramsBytesOf "1111")
    (lineageOf raceCrypto twoReleases 1) (onlyFirst 1)).1 =
      .ok ⟨bytesOf raceB, .legacy 0 firstKey⟩ := by
  decide +kernel

theorem fetchOf_onlyFirst : fetchOf raceCrypto "1111" twoReleases "180s" 1 secondRelease onlyFirst =
    (.ok raceB, some carried) := by
  have hfound : (getStateWithLegacyFallback raceCrypto
      (HelperEnv.fromEnv raceCrypto "1111" secondRelease.wasm).contractId
      (paramsBytesOf (HelperEnv.fromEnv raceCrypto "1111" secondRelease.wasm).prefixStr)
      (lineageOf raceCrypto twoReleases 1) "180s" onlyFirst).1 =
        .ok ⟨bytesOf raceB, .legacy 0 firstKey⟩ := fallback_of_first "180s" firstPass
  unfold fetchOf fetchRepoStateFromRegistry
  dsimp only
  rw [hfound]
  dsimp only
  rw [fromBytes_raceB]
  rfl

theorem twoKeys : (keyInputs raceCrypto "1111" twoReleases).InjOn raceCrypto.blake3 := by
  have hinputs : keyInputs raceCrypto "1111" twoReleases ⊆
      {bs | bs ∈ [wasm 1, wasm 2, (raceCrypto.blake3 (wasm 1)).toList ++ paramsBytesOf "1111",
        (raceCrypto.blake3 (wasm 2)).toList ++ paramsBytesOf "1111"]} := by
    rintro bs ⟨r, hr, hbs⟩
    simp only [twoReleases, List.mem_cons, List.not_mem_nil, or_false] at hr
    rcases hr with rfl | rfl <;> rcases hbs with rfl | rfl <;> simp [firstRelease, secondRelease]
  refine Set.InjOn.mono hinputs fun x hx y hy hxy => ?_
  have hall : ∀ x ∈ [wasm 1, wasm 2, (raceCrypto.blake3 (wasm 1)).toList ++ paramsBytesOf "1111",
      (raceCrypto.blake3 (wasm 2)).toList ++ paramsBytesOf "1111"],
      ∀ y ∈ [wasm 1, wasm 2, (raceCrypto.blake3 (wasm 1)).toList ++ paramsBytesOf "1111",
        (raceCrypto.blake3 (wasm 2)).toList ++ paramsBytesOf "1111"],
      raceCrypto.blake3 x = raceCrypto.blake3 y → x = y := by
    decide +kernel
  exact hall x hx y hy hxy

theorem keysOf_second : (keysOf raceCrypto "1111" twoReleases 1 secondRelease).map (·.id) =
    [secondKey, firstKey] := by
  decide +kernel

theorem differentKeys : secondKey ≠ firstKey := by decide +kernel

theorem stored_adopted (id : ContractId) :
    adoptedWorld.now.stored id = if id = firstKey then some (bytesOf raceB) else none := rfl

/-- The answers are those of the hosts. -/
theorem onlyFirst_honest (n i : Nat) (key : ProbeKey)
    (hkey : (keysOf raceCrypto "1111" twoReleases 1 secondRelease)[i]? = some key) :
    Honest (adoptedWorld.now.stored key.id) (onlyFirst n i) := by
  have hid : [secondKey, firstKey][i]? = some key.id := by
    rw [← keysOf_second, List.getElem?_map, hkey, Option.map_some]
  rcases i with _ | _ | i
  · rw [← Option.some.inj hid, stored_adopted, if_neg differentKeys]
    refine ⟨fun _ => rfl, fun bytes h => ?_⟩
    cases h
  · rw [← Option.some.inj hid, stored_adopted, if_pos rfl]
    refine ⟨fun h => ?_, fun bytes h _ => ?_⟩
    · exact absurd h (RepoState.toBytes_ne_nil toBytes_raceB)
    · cases h
      rfl
  · cases hid

theorem migration_run : Run (Step raceCrypto "1111" twoReleases "180s") createdWorld migrationRun
    carriedOver := by
  have hadopt : Step raceCrypto "1111" twoReleases "180s" createdWorld (.adopt 1) adoptedWorld :=
    .adopt (Nat.zero_le 1) (by decide)
  have hall : adoptedWorld.all = [createdWorld.now] ++ adoptedWorld.now :: [] := rfl
  have hfetch : Step raceCrypto "1111" twoReleases "180s" adoptedWorld (.fetch 1 1 onlyFirst)
      { adoptedWorld with sent := adoptedWorld.sent ++
        (fetchOf raceCrypto "1111" twoReleases "180s" 1 secondRelease onlyFirst).2.toList } :=
    .fetch rfl hall rfl fun n i key hkey =>
      ⟨_, List.mem_cons_self, onlyFirst_honest n i key hkey⟩
  rw [fetchOf_onlyFirst] at hfetch
  have hland : Step raceCrypto "1111" twoReleases "180s" fetchedWorld (.land carried) carriedOver :=
    .store List.mem_cons_self (by decide +kernel) (by decide +kernel)
  exact ((Run.nil.snoc hadopt).snoc hfetch).snoc hland

end Sample

open migration Sample in
theorem migration_keeps_race :
    (∀ q ∈ [createdWorld.now, adoptedWorld.now], ∀ r ∈ twoReleases, ∀ sb s,
      q.stored (keyOf raceCrypto "1111" r) = some sb → RepoState.fromBytes raceCrypto sb = .ok s →
      Preserves s raceB) ∧
    ∃ r ∈ twoReleases, ∃ sb s, carriedOver.now.stored (keyOf raceCrypto "1111" r) = some sb ∧
      RepoState.fromBytes raceCrypto sb = .ok s ∧
      ∀ q ∈ carriedOver.all, ∀ r' ∈ twoReleases, ∀ sb' s',
        q.stored (keyOf raceCrypto "1111" r') = some sb' →
        RepoState.fromBytes raceCrypto sb' = .ok s' → Preserves s' s := by
  have hgen : Ordered twoReleases := List.pairwise_pair.mpr (by decide)
  have hkeeps := migration_keeps (r := firstRelease) twoKeys (by decide) hgen (by decide)
    rfl fromBytes_raceB migration_run
  exact ⟨hkeeps.1 _ (List.mem_cons_of_mem _ List.mem_cons_self) 1 secondRelease 1 onlyFirst raceB
    rfl rfl (congrArg Prod.fst fetchOf_onlyFirst), hkeeps.2⟩

end FreenetGit
