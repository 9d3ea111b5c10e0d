/-
# `FreenetGit.Contract` — the repo contract and its runs

The contract is the boundary to untrusted peers: it decodes parameters, state
and a list of updates, applies the updates one after another, and encodes the
result.  A successful call on bytes is a sequence of `update_state`s on states
(`contract.updateState_updates`), and so is a run of calls (`Reaches.updates`).
Two invariants of such sequences are the results: nothing that is stored is
lost or goes back (`contract_monotone`), and nothing is stored that the owner
did not sign for its place (`contract_authentic`).
-/
import FreenetGit.Bincode

namespace FreenetGit

open Lib

/-! ## The calls -/

/-- `UpdateData`: the kinds that refer to other contracts carry data that is not read. -/
inductive UpdateData where
  | state (bytes : Bytes)
  | delta (bytes : Bytes)
  | stateAndDelta (state delta : Bytes)
  | relatedState
  | relatedDelta
  | relatedStateAndDelta
  | unknown
deriving DecidableEq

inductive ContractError where
  | invalidUpdateWithInfo (reason : String)
  | invalidUpdate
deriving DecidableEq

namespace contract

variable (cr : Crypto)

def decodeParams (p : Bytes) : Outcome ContractError RepoParams :=
  match RepoParams.fromBytes cr p with
  | .error e => .error (.err (.invalidUpdateWithInfo ("decode params: " ++ e.display)))
  | .ok params => .ok params

def decodeState (bytes : Bytes) : Outcome ContractError RepoState :=
  match RepoState.fromBytes cr bytes with
  | .error e => .error (.err (.invalidUpdateWithInfo ("decode state: " ++ e.display)))
  | .ok s => .ok s

/-- `types::update_state(..).map_err(..)`, where the label says which half failed. -/
def update (label : String) (params : RepoParams) (current incoming : RepoState) :
    Outcome ContractError RepoState :=
  match FreenetGit.updateState cr params current incoming with
  | .ok s => .ok s
  | .error .panicked => .error .panicked
  | .error (.err e) =>
      .error (.err (.invalidUpdateWithInfo ("update_state (" ++ label ++ "): " ++ e.display)))

/-- The body of the loop over the updates. -/
def applyItem (params : RepoParams) (current : RepoState) :
    UpdateData → Outcome ContractError RepoState
  | .state newStateBytes => do
      let incoming ← decodeState cr newStateBytes
      update cr "full state" params current incoming
  | .delta deltaBytes =>
      if deltaBytes.isEmpty then .ok current
      else do
        let delta ← decodeState cr deltaBytes
        update cr "delta" params current delta
  | .stateAndDelta state delta => do
      let incomingState ← decodeState cr state
      let current ← update cr "state+delta state half" params current incomingState
      if delta.isEmpty then .ok current
      else do
        let incomingDelta ← decodeState cr delta
        update cr "state+delta delta half" params current incomingDelta
  | .relatedState | .relatedDelta | .relatedStateAndDelta | .unknown =>
      .error (.err .invalidUpdate)

def encodeState (current : RepoState) : Outcome ContractError Bytes :=
  match current.toBytes with
  | none => .error (.err (.invalidUpdateWithInfo
      ("re-serialize updated state: " ++ cr.bincodeError [])))
  | some bytes => .ok bytes

/-- `Contract::update_state`. -/
def updateState (parameters state : Bytes) (data : List UpdateData) :
    Outcome ContractError Bytes := do
  let params ← decodeParams cr parameters
  let current ← decodeState cr state
  let current ← data.foldlM (applyItem cr params) current
  encodeState cr current

end contract

/-! ## A call is a sequence of updates -/

/-- A sequence of successful `update_state`s with arbitrary deltas. -/
def Updates (cr : Crypto) (params : RepoParams) : RepoState → RepoState → Prop :=
  Relation.ReflTransGen fun s s' => ∃ d, updateState cr params s d = .ok s'

section

variable {cr : Crypto} {params : RepoParams} {s s' : RepoState}

theorem contract.decodeState_eq_ok {bytes : Bytes} :
    contract.decodeState cr bytes = .ok s ↔ RepoState.fromBytes cr bytes = .ok s := by
  unfold contract.decodeState
  cases RepoState.fromBytes cr bytes with
  | error e => exact ⟨nofun, nofun⟩
  | ok t => simp only [Except.ok.injEq]

theorem contract.decodeParams_eq_ok {bytes : Bytes} :
    contract.decodeParams cr bytes = .ok params ↔ RepoParams.fromBytes cr bytes = .ok params := by
  unfold contract.decodeParams
  cases RepoParams.fromBytes cr bytes with
  | error e => exact ⟨nofun, nofun⟩
  | ok t => simp only [Except.ok.injEq]

theorem contract.update_eq_ok {label : String} {d : RepoState} :
    contract.update cr label params s d = .ok s' ↔
      FreenetGit.updateState cr params s d = .ok s' := by
  unfold contract.update
  split
  · next h => rw [h, Except.ok.injEq, Except.ok.injEq]
  · next h => exact ⟨nofun, fun h' => nomatch h.symm.trans h'⟩
  · next h => exact ⟨nofun, fun h' => nomatch h.symm.trans h'⟩

theorem contract.update_updates {label : String} {d : RepoState}
    (h : contract.update cr label params s d = .ok s') : Updates cr params s s' :=
  .single ⟨d, contract.update_eq_ok.mp h⟩

theorem contract.applyItem_updates {u : UpdateData}
    (h : contract.applyItem cr params s u = .ok s') : Updates cr params s s' := by
  cases u with
  | state bytes =>
      obtain ⟨_, _, h⟩ := bind_eq_ok.mp h
      exact contract.update_updates h
  | delta bytes =>
      simp only [contract.applyItem] at h
      split at h
      · cases h
        exact .refl
      · obtain ⟨_, _, h⟩ := bind_eq_ok.mp h
        exact contract.update_updates h
  | stateAndDelta state delta =>
      obtain ⟨_, _, h⟩ := bind_eq_ok.mp h
      obtain ⟨t, ht, h⟩ := bind_eq_ok.mp h
      have first := contract.update_updates ht
      split at h
      · cases h
        exact first
      · obtain ⟨_, _, h⟩ := bind_eq_ok.mp h
        exact first.trans (contract.update_updates h)
  | relatedState | relatedDelta | relatedStateAndDelta | unknown => cases h

theorem contract.items_updates : ∀ {data : List UpdateData} {s s' : RepoState},
    data.foldlM (contract.applyItem cr params) s = .ok s' → Updates cr params s s'
  | [], _, _, h => by
      cases h
      exact .refl
  | _ :: _, _, _, h => by
      rw [List.foldlM_cons] at h
      obtain ⟨t, ht, h⟩ := bind_eq_ok.mp h
      exact (contract.applyItem_updates ht).trans (contract.items_updates h)

/-- **A successful call** is a sequence of updates between the states of its bytes. -/
theorem contract.updateState_updates {pb sb sb' : Bytes} {data : List UpdateData}
    (hp : RepoParams.fromBytes cr pb = .ok params) (hs : RepoState.fromBytes cr sb = .ok s)
    (h : contract.updateState cr pb sb data = .ok sb') :
    ∃ s', RepoState.fromBytes cr sb' = .ok s' ∧ Updates cr params s s' := by
  rw [contract.updateState, contract.decodeParams_eq_ok.mpr hp,
    contract.decodeState_eq_ok.mpr hs] at h
  change (data.foldlM (contract.applyItem cr params) s >>= contract.encodeState cr) = .ok sb' at h
  obtain ⟨s', hitems, h⟩ := bind_eq_ok.mp h
  refine ⟨s', ?_, contract.items_updates hitems⟩
  unfold contract.encodeState at h
  split at h
  · cases h
  · next hb =>
      cases h
      exact RepoState.fromBytes_toBytes hb

end

/-! ## Runs -/

/-- A run of successful calls; a failing call leaves the bytes as they are. -/
def Reaches (cr : Crypto) (pb : Bytes) : Bytes → Bytes → Prop :=
  Relation.ReflTransGen fun sb sb' => ∃ data, contract.updateState cr pb sb data = .ok sb'

section

variable {cr : Crypto} {params : RepoParams} {s s' : RepoState} {pb sb sb' : Bytes}

theorem Reaches.updates (hp : RepoParams.fromBytes cr pb = .ok params)
    (hs : RepoState.fromBytes cr sb = .ok s) (h : Reaches cr pb sb sb') :
    ∃ s', RepoState.fromBytes cr sb' = .ok s' ∧ Updates cr params s s' := by
  induction h with
  | refl => exact ⟨s, hs, .refl⟩
  | tail _ hstep ih =>
      obtain ⟨data, hcall⟩ := hstep
      obtain ⟨t, ht, hup⟩ := ih
      obtain ⟨s', hs', hup'⟩ := contract.updateState_updates hp ht hcall
      exact ⟨s', hs', hup.trans hup'⟩

/-! ## What updates preserve -/

/-- `s'` holds everything that `s` holds: the same owner, every filled slot with
no lower sequence number, every bundle with its record. -/
structure Preserves (s s' : RepoState) : Prop where
  owner : s'.owner = s.owner
  slot : ∀ (σ : Slot) (e : σ.Entry), s.at σ = some e →
    ∃ e', s'.at σ = some e' ∧ σ.updateSeq e ≤ σ.updateSeq e'
  record : ∀ (id : ObjectBundleId) (r : ObjectBundleRecord), s.objectIndex[id]? = some r →
    s'.objectIndex[id]? = some r

theorem Preserves.refl (s : RepoState) : Preserves s s :=
  ⟨rfl, fun _ e h => ⟨e, h, UInt64.le_refl _⟩, fun _ _ h => h⟩

theorem Preserves.trans {t : RepoState} (h : Preserves s t) (h' : Preserves t s') :
    Preserves s s' where
  owner := h'.owner.trans h.owner
  slot σ e he := by
    obtain ⟨e₁, h₁, hle₁⟩ := h.slot σ e he
    obtain ⟨e₂, h₂, hle₂⟩ := h'.slot σ e₁ h₁
    exact ⟨e₂, h₂, UInt64.le_trans hle₁ hle₂⟩
  record id r hr := h'.record id r (h.record id r hr)

/-- A merge preserves the current state, whatever comes in. -/
theorem preserves_mergeState (s d : RepoState) : Preserves s (mergeState s d) where
  owner := rfl
  slot σ e he := by
    obtain ⟨c, hc, hw⟩ := σ.picker.pickOpt_some_left e (d.at σ)
    refine ⟨c, ?_, Slot.updateSeq_le_of_wins hw⟩
    rw [mergeState_at, he, hc]
  record id r hr := by rw [mergeState_objectIndex, hr, Option.some_or]

theorem Updates.preserves (h : Updates cr params s s') : Preserves s s' := by
  induction h with
  | refl => exact .refl s
  | tail _ hstep ih =>
      obtain ⟨d, hd⟩ := hstep
      rw [(updateState_eq_ok.mp hd).1]
      exact ih.trans (preserves_mergeState _ d)

theorem Updates.accepted (hs : Accepted cr params s) (h : Updates cr params s s') :
    Accepted cr params s' := by
  induction h with
  | refl => exact hs
  | tail _ hstep _ =>
      obtain ⟨d, hd⟩ := hstep
      exact (updateState_eq_ok.mp hd).2

/-- **Monotone history.**  From an accepted state, every successful call of every
run gives an accepted state of the same owner that holds everything the state
before the call, and the first state, hold. -/
theorem contract_monotone {sb₀ : Bytes} {s₀ : RepoState} {data : List UpdateData}
    (hp : RepoParams.fromBytes cr pb = .ok params) (hs₀ : RepoState.fromBytes cr sb₀ = .ok s₀)
    (hv : validateState cr params s₀ = .ok ()) (hrun : Reaches cr pb sb₀ sb)
    (hcall : contract.updateState cr pb sb data = .ok sb') :
    ∃ s s', RepoState.fromBytes cr sb = .ok s ∧ RepoState.fromBytes cr sb' = .ok s' ∧
      validateState cr params s' = .ok () ∧ Preserves s s' ∧ Preserves s₀ s' := by
  obtain ⟨s, hs, hup⟩ := hrun.updates hp hs₀
  obtain ⟨s', hs', hup'⟩ := contract.updateState_updates hp hs hcall
  have hacc := Updates.accepted (validateState_eq_ok.mp hv) (hup.trans hup')
  exact ⟨s, s', hs, hs', validateState_eq_ok.mpr hacc, hup'.preserves,
    hup.preserves.trans hup'.preserves⟩

end

/-! A peer that holds one of the racing pushes is sent the other one. -/

namespace Sample

def bytesOf (s : RepoState) : Bytes := s.toBytes.getD []

def paramsBytes : Bytes := (bincode.repoParams.enc params).getD []

theorem fromBytes_params : RepoParams.fromBytes raceCrypto paramsBytes = .ok Sample.params := by
  decide

/-- What is within the limits of the codec is read back. -/
theorem toBytes_bytesOf {s : RepoState} (h : s.toBytes.isSome = true) :
    s.toBytes = some (bytesOf s) := by
  obtain ⟨bs, hbs⟩ := Option.isSome_iff_exists.mp h
  rw [bytesOf, hbs]
  rfl

theorem toBytes_raceA : raceA.toBytes = some (bytesOf raceA) := toBytes_bytesOf (by decide)

theorem toBytes_raceB : raceB.toBytes = some (bytesOf raceB) := toBytes_bytesOf (by decide)

theorem fromBytes_raceB : RepoState.fromBytes raceCrypto (bytesOf raceB) = .ok raceB :=
  RepoState.fromBytes_toBytes toBytes_raceB

theorem fromBytes_raceA : RepoState.fromBytes raceCrypto (bytesOf raceA) = .ok raceA :=
  RepoState.fromBytes_toBytes toBytes_raceA

/-- The push A stays, also where B comes second. -/
theorem update_race {label : String} {s d : RepoState} (h : mergeState s d = raceA) :
    contract.update raceCrypto label params s d = .ok raceA :=
  contract.update_eq_ok.mpr (updateState_eq_ok.mpr
    ⟨h.symm, validateState_eq_ok.mp (race_accepted _ (.inl rfl)).1⟩)

/-- The signature of push A wins the race. -/
theorem race_wins : pickHigherSeq 1 (sig 1) 1 (sig 2) = true ∧
    pickHigherSeq 1 (sig 2) 1 (sig 1) = false := by
  decide +kernel

theorem mergeState_raceA_raceB : mergeState raceA raceB = raceA := by
  rw [raceA, raceB, mergeState_withRef, pickRefEntry, race_wins.1]
  rfl

theorem mergeState_raceB_raceA : mergeState raceB raceA = raceA := by
  rw [raceA, raceB, mergeState_withRef, pickRefEntry, race_wins.2]
  rfl

theorem race_call : contract.updateState raceCrypto paramsBytes (bytesOf raceB)
    [.delta [], .stateAndDelta (bytesOf raceA) (bytesOf raceB)] = .ok (bytesOf raceA) := by
  have hitem : contract.applyItem raceCrypto params raceB
      (.stateAndDelta (bytesOf raceA) (bytesOf raceB)) = .ok raceA := by
    refine bind_eq_ok.mpr ⟨_, contract.decodeState_eq_ok.mpr fromBytes_raceA, ?_⟩
    refine bind_eq_ok.mpr ⟨_, update_race mergeState_raceB_raceA, ?_⟩
    rw [if_neg (fun h => RepoState.toBytes_ne_nil toBytes_raceB (List.isEmpty_iff.mp h))]
    exact bind_eq_ok.mpr ⟨_, contract.decodeState_eq_ok.mpr fromBytes_raceB,
      update_race mergeState_raceA_raceB⟩
  refine bind_eq_ok.mpr ⟨_, contract.decodeParams_eq_ok.mpr fromBytes_params, ?_⟩
  refine bind_eq_ok.mpr ⟨_, contract.decodeState_eq_ok.mpr fromBytes_raceB, ?_⟩
  refine bind_eq_ok.mpr ⟨raceA, ?_, by rw [contract.encodeState, toBytes_raceA]⟩
  rw [List.foldlM_cons]
  exact bind_eq_ok.mpr ⟨raceB, rfl, by rw [List.foldlM_cons, hitem]; rfl⟩

end Sample

theorem contract_monotone_race : ∃ s s',
    RepoState.fromBytes Sample.raceCrypto (Sample.bytesOf Sample.raceB) = .ok s ∧
    RepoState.fromBytes Sample.raceCrypto (Sample.bytesOf Sample.raceA) = .ok s' ∧
    validateState Sample.raceCrypto Sample.params s' = .ok () ∧ Preserves s s' ∧
      Preserves Sample.raceB s' :=
  contract_monotone Sample.fromBytes_params Sample.fromBytes_raceB
    (Sample.race_accepted _ (.inr rfl)).1 .refl Sample.race_call

/-! ## What the owner signed -/

section

variable {cr : Crypto} {params : RepoParams} {s : RepoState} {pb sb : Bytes}

/-- The byte strings hashed when the owner signs: the keys of the repositories
and the bundles of the statements. -/
def ownerInputs (issued : Set (RepoParams × Statement)) (owner : PublicKey) : Set Bytes :=
  {bs | ∃ q ∈ issued, bs = repoKeyInput q.1 owner ∨ bs ∈ q.2.hashed}

/-- Every entry was signed by the owner, for its place in the repository of
these parameters. -/
structure Authentic (issued : Set (RepoParams × Statement)) (cr : Crypto) (params : RepoParams)
    (owner : PublicKey) (s : RepoState) : Prop where
  owner_eq : s.owner = owner
  issued : ∀ st sig, Says s st sig → (params, st) ∈ issued ∧ Signed cr params owner st sig
  updater : ∀ (n : RefName) (e : RefEntry), s.refs[n]? = some e → e.updater = owner
  record : ∀ (id : ObjectBundleId) (r : ObjectBundleRecord), s.objectIndex[id]? = some r →
    r.bundle.id cr = id ∧ r.addedBy = owner

theorem hashed_subset_bundleEncodings {st : Statement} {sig : Signature} (h : Says s st sig) :
    st.hashed ⊆ bundleEncodings s := by
  cases h with
  | bundle hr =>
      rintro _ rfl
      exact ⟨_, _, hr, rfl⟩
  | name | description | defaultBranch | forcePushAllowed | acl | upgrade | ref | extension =>
      exact Set.empty_subset _

/-- In an accepted state every entry is authentic: a signature replayed from
another kind, place or repository is one for another payload. -/
theorem Accepted.authentic {issued : Set (RepoParams × Statement)} (h : Accepted cr params s)
    (hsig : ∀ p σ, cr.verify s.owner p σ = true →
      ∃ q ∈ issued, q.2.payload cr (paramsRepoKey cr q.1 s.owner) = some p)
    (hcr : ({repoKeyInput params s.owner} ∪ ownerInputs issued s.owner ∪
      bundleEncodings s).InjOn cr.blake3) :
    Authentic issued cr params s.owner s where
  owner_eq := rfl
  issued st sig hst := by
    refine ⟨?_, h.signed st sig hst⟩
    obtain ⟨p, hp, hv⟩ := h.signed st sig hst
    obtain ⟨q, hq, hqp⟩ := hsig p sig hv
    have hsub : st.hashed ∪ q.2.hashed ⊆
        {repoKeyInput params s.owner} ∪ ownerInputs issued s.owner ∪ bundleEncodings s := by
      rintro x (hx | hx)
      · exact .inr (hashed_subset_bundleEncodings hst hx)
      · exact .inl (.inr ⟨q, hq, .inr hx⟩)
    obtain ⟨hk, rfl⟩ := Statement.payload_inj (hcr.mono hsub) hp hqp
    have hkey := hcr (.inl (.inl rfl)) (.inl (.inr ⟨q, hq, .inl rfl⟩)) hk
    rw [(repoKeyInput_inj hkey).1]
    exact hq
  updater n e he := (h.refOk n e he).2
  record := h.bundleOk

/-- **Authenticity.**  Whatever update data adversaries build, every entry of
every state a run reaches from an accepted state was signed by the owner for
exactly that place. -/
theorem contract_authentic {issued : Set (RepoParams × Statement)} {sb₀ : Bytes} {s₀ : RepoState}
    (hp : RepoParams.fromBytes cr pb = .ok params) (hs₀ : RepoState.fromBytes cr sb₀ = .ok s₀)
    (hv : validateState cr params s₀ = .ok ())
    (hsig : ∀ p σ, cr.verify s₀.owner p σ = true →
      ∃ q ∈ issued, q.2.payload cr (paramsRepoKey cr q.1 s₀.owner) = some p)
    (hrun : Reaches cr pb sb₀ sb) (hs : RepoState.fromBytes cr sb = .ok s)
    (hcr : ({repoKeyInput params s₀.owner} ∪ ownerInputs issued s₀.owner ∪
      bundleEncodings s).InjOn cr.blake3) :
    Authentic issued cr params s₀.owner s := by
  obtain ⟨s', hs', hup⟩ := hrun.updates hp hs₀
  obtain rfl : s' = s := by
    rw [hs] at hs'
    exact (Except.ok.inj hs').symm
  have ho : s'.owner = s₀.owner := hup.preserves.owner
  rw [← ho] at hsig hcr ⊢
  exact (Updates.accepted (validateState_eq_ok.mp hv) hup).authentic hsig hcr

end

namespace Sample

/-- The statements the owner signed in the race. -/
def raceIssued : Set (RepoParams × Statement) :=
  {(params, .ref main (sha 1) 1 0), (params, .ref main (sha 2) 1 0)}

/-- A signature of the table verifies only for the payload of its statement. -/
theorem verify_crypto {table : List (Statement × Signature)} {pk : PublicKey} {p : Bytes}
    {σ : Signature} (h : (crypto table).verify pk p σ = true) :
    ∃ st, (st, σ) ∈ table ∧
      st.payload (crypto table) (paramsRepoKey (crypto table) params owner) = some p := by
  obtain ⟨e, he, hp⟩ := Option.bind_eq_some_iff.mp (of_decide_eq_true h).2
  have hσ : e.2 = σ := by simpa using List.find?_some he
  have hm := List.mem_of_find?_eq_some he
  refine ⟨e.1, hσ ▸ hm, ?_⟩
  rw [← hp]
  cases e.1 <;> rfl

theorem race_issued {p : Bytes} {σ : Signature} (h : raceCrypto.verify owner p σ = true) :
    ∃ q ∈ raceIssued, q.2.payload raceCrypto (paramsRepoKey raceCrypto q.1 owner) = some p := by
  obtain ⟨st, hst, hp⟩ := verify_crypto h
  refine ⟨(params, st), ?_, hp⟩
  simp only [List.mem_cons, Prod.mk.injEq, List.not_mem_nil, or_false] at hst
  rcases hst with ⟨rfl, _⟩ | ⟨rfl, _⟩
  · exact .inl rfl
  · exact .inr rfl

theorem race_injOn : ({repoKeyInput Sample.params owner} ∪ ownerInputs raceIssued owner ∪
    bundleEncodings raceA).InjOn raceCrypto.blake3 := by
  have one : ∀ x ∈ {repoKeyInput Sample.params owner} ∪ ownerInputs raceIssued owner ∪
      bundleEncodings raceA, x = repoKeyInput Sample.params owner := by
    rintro x ((rfl | ⟨q, rfl | rfl, hx⟩) | ⟨id, r, hr, -⟩)
    · rfl
    · exact hx.elim id (fun h => absurd h (Set.notMem_empty _))
    · exact hx.elim id (fun h => absurd h (Set.notMem_empty _))
    · have hr : (∅ : BTreeMap ObjectBundleId ObjectBundleRecord)[id]? = some r := hr
      rw [Std.ExtTreeMap.getElem?_empty] at hr
      cases hr
  intro x hx y hy _
  rw [one x hx, one y hy]

end Sample

theorem contract_authentic_race :
    Authentic Sample.raceIssued Sample.raceCrypto Sample.params Sample.owner Sample.raceA :=
  show Authentic _ _ _ Sample.raceB.owner _ from
    contract_authentic Sample.fromBytes_params Sample.fromBytes_raceB
      (Sample.race_accepted _ (.inr rfl)).1 (fun _ _ h => Sample.race_issued h)
      (.single ⟨_, Sample.race_call⟩) Sample.fromBytes_raceA Sample.race_injOn

end FreenetGit
