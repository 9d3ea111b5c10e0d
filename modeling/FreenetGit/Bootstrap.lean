/-
# `FreenetGit.Bootstrap` — from no state to a state

Where there is no state its bytes are empty, and they are read as the default
state.  For the entries the default state is neutral on both sides of a merge
(`mergeState_default`, `default_mergeState`), and a summary of nothing asks for
all of them.  The owner is no entry: it comes with the current state, never
with an update.  So an update takes a peer from nothing to a state exactly when
the owner is the key the default state has (`bootstrap_iff`).
-/
import FreenetGit.Signer
import FreenetGit.Wire

namespace FreenetGit

open Lib

/-! ## Summaries and deltas of the contract -/

/-- `RepoSummary::default()`. -/
def RepoSummary.default : RepoSummary where
  fieldSeqs := ∅
  refSeqs := ∅
  bundleIds := []
  extensionSeqs := ∅

namespace contract

variable (cr : Crypto)

def decodeSummary (bytes : Bytes) : Outcome ContractError RepoSummary :=
  if bytes.isEmpty then .ok RepoSummary.default
  else
    match bincode.repoSummary.read bytes with
    | none => .error (.err (.invalidUpdateWithInfo ("decode summary: " ++ cr.bincodeError bytes)))
    | some s => .ok s

def isEmptyDelta (s : RepoState) : Bool :=
  s.name.isNone && s.description.isNone && s.defaultBranch.isNone && s.forcePushAllowed.isNone &&
    s.acl.isNone && s.upgrade.isNone && s.refs.isEmpty && s.objectIndex.isEmpty &&
    s.extensions.isEmpty

/-- `Contract::summarize_state`. -/
def summarizeState (parameters state : Bytes) : Outcome ContractError Bytes := do
  let _ ← decodeParams cr parameters
  let state ← decodeState cr state
  match bincode.repoSummary.enc (FreenetGit.summarizeState state) with
  | none => .error (.err (.invalidUpdateWithInfo ("serialize summary: " ++ cr.bincodeError [])))
  | some bytes => .ok bytes

/-- `Contract::get_state_delta`; the delta of a peer that is caught up has no bytes. -/
def getStateDelta (parameters state summary : Bytes) : Outcome ContractError Bytes := do
  let _ ← decodeParams cr parameters
  let state ← decodeState cr state
  let summary ← decodeSummary cr summary
  let delta := FreenetGit.getStateDelta state summary
  if isEmptyDelta delta then .ok []
  else
    match delta.toBytes with
    | none => .error (.err (.invalidUpdateWithInfo ("serialize delta: " ++ cr.bincodeError [])))
    | some bytes => .ok bytes

end contract

/-! ## The default state is neutral for the entries -/

/-- The entries of a state, without its owner. -/
def RepoState.ownerless (s : RepoState) : RepoState := { s with owner := zeros 32 }

@[simp] theorem RepoState.ownerless_at (s : RepoState) (σ : Slot) : s.ownerless.at σ = s.at σ := by
  cases σ <;> rfl

@[simp] theorem RepoState.ownerless_objectIndex (s : RepoState) :
    s.ownerless.objectIndex = s.objectIndex := rfl

theorem RepoState.ownerless_eq_iff {s : RepoState} : s.ownerless = s ↔ s.owner = zeros 32 := by
  constructor
  · intro h
    rw [← h]
    rfl
  · intro h
    exact ext_at h.symm s.ownerless_at rfl

theorem mergeState_default (s : RepoState) : mergeState s RepoState.default = s := by
  refine RepoState.ext_at rfl (fun σ => ?_) (Std.ExtTreeMap.ext_getElem? fun id => ?_)
  · rw [mergeState_at, RepoState.default_at, Picker.pickOpt_none_right]
  · have hnone : RepoState.default.objectIndex[id]? = none := Std.ExtTreeMap.getElem?_empty
    rw [mergeState_objectIndex, hnone, Option.or_none]

theorem default_mergeState (s : RepoState) : mergeState RepoState.default s = s.ownerless := by
  refine RepoState.ext_at rfl (fun σ => ?_) (Std.ExtTreeMap.ext_getElem? fun id => ?_)
  · rw [mergeState_at, RepoState.default_at, Picker.pickOpt_none_left, RepoState.ownerless_at]
  · have hnone : RepoState.default.objectIndex[id]? = none := Std.ExtTreeMap.getElem?_empty
    rw [mergeState_objectIndex, hnone, Option.none_or, RepoState.ownerless_objectIndex]

theorem RepoSummary.default_at : ∀ σ : Slot, RepoSummary.default.at σ = none
  | .name | .description | .defaultBranch | .forcePushAllowed | .acl | .upgrade | .ref _
  | .extension _ => Std.ExtTreeMap.getElem?_empty

/-- A summary of nothing asks for every entry. -/
theorem getStateDelta_default (s : RepoState) :
    getStateDelta s RepoSummary.default = s.ownerless := by
  refine RepoState.ext_at rfl (fun σ => ?_) (Std.ExtTreeMap.ext_getElem? fun id => ?_)
  · rw [getStateDelta_at, RepoSummary.default_at, RepoState.ownerless_at]
    cases s.at σ <;> rfl
  · rw [getStateDelta_objectIndex, RepoState.ownerless_objectIndex]
    exact if_neg List.not_mem_nil

theorem summarizeState_default : summarizeState RepoState.default = RepoSummary.default := rfl

/-- A delta is empty when it has no entry. -/
theorem contract.isEmptyDelta_iff {s : RepoState} :
    contract.isEmptyDelta s = true ↔ s.ownerless = RepoState.default := by
  simp only [contract.isEmptyDelta, Bool.and_eq_true, Option.isNone_iff_eq_none,
    Std.ExtTreeMap.isEmpty_iff, RepoState.ownerless, RepoState.default, RepoState.mk.injEq,
    true_and, and_assoc]

/-! ## Bootstrapping -/

section

variable {cr : Crypto} {params : RepoParams} {s t d : RepoState} {pb sb bs out : Bytes}

theorem RepoState.Sized.ownerless (h : s.Sized) : s.ownerless.Sized where
  slot σ e he := h.slot σ e (s.ownerless_at σ ▸ he)
  refs := h.refs
  objectIndex := h.objectIndex
  extensions := h.extensions

/-- What the peer has after one update on no state. -/
def Bootstraps (cr : Crypto) (pb : Bytes) (u : UpdateData) (s : RepoState) : Prop :=
  ∃ out, contract.updateState cr pb [] [u] = .ok out ∧ RepoState.fromBytes cr out = .ok s

theorem contract.decodeState_nil : contract.decodeState cr [] = .ok RepoState.default := rfl

/-- An update on no state ends in a state, if it is the one that the update makes of
the default state. -/
theorem bootstraps_iff {u : UpdateData} (hp : RepoParams.fromBytes cr pb = .ok params)
    (hs : s.Sized) :
    Bootstraps cr pb u s ↔ contract.applyItem cr params RepoState.default u = .ok s := by
  have hcall : ∀ out, contract.updateState cr pb [] [u] = .ok out ↔
      ∃ t, [u].foldlM (contract.applyItem cr params) RepoState.default = .ok t ∧
        t.toBytes = some out := fun out =>
    contract.updateState_eq_ok (contract.decodeParams_eq_ok.mpr hp) contract.decodeState_nil
  have hitem : ∀ t, [u].foldlM (contract.applyItem cr params) RepoState.default = .ok t ↔
      contract.applyItem cr params RepoState.default u = .ok t := fun t => by
    simp only [List.foldlM_cons, List.foldlM_nil, bind_pure]
  simp only [Bootstraps, hcall, hitem]
  constructor
  · rintro ⟨out, ⟨t, ht, hbytes⟩, hread⟩
    rw [RepoState.fromBytes_toBytes hbytes] at hread
    cases hread
    exact ht
  · intro h
    obtain ⟨out, hout⟩ := bincode.fits_repoState.mpr hs
    exact ⟨out, ⟨s, h, hout⟩, RepoState.fromBytes_toBytes hout⟩

/-- What has the entries of an accepted state makes that state of the default state
if the owner is the default one. -/
theorem updateState_default_iff (hs : Accepted cr params s) (hd : d.ownerless = s.ownerless) :
    updateState cr params RepoState.default d = .ok s ↔ s.owner = zeros 32 := by
  rw [updateState_eq_ok, default_mergeState, hd, and_iff_left hs, ← RepoState.ownerless_eq_iff]
  exact eq_comm

theorem bootstraps_state_iff (hp : RepoParams.fromBytes cr pb = .ok params)
    (hsb : RepoState.fromBytes cr sb = .ok s) (hs : Accepted cr params s) :
    Bootstraps cr pb (.state sb) s ↔ s.owner = zeros 32 := by
  rw [bootstraps_iff hp (RepoState.sized_of_fromBytes hsb), ← updateState_default_iff hs rfl]
  simp only [contract.applyItem, contract.decodeState_eq_ok.mpr hsb]
  exact contract.update_eq_ok

/-- The delta for a summary of nothing has all entries, and no bytes if there are none. -/
theorem contract.getStateDelta_ok (hp : RepoParams.fromBytes cr pb = .ok params)
    (hsb : RepoState.fromBytes cr sb = .ok s)
    (hsum : contract.decodeSummary cr bs = .ok RepoSummary.default) :
    ∃ out, contract.getStateDelta cr pb sb bs = .ok out ∧
      RepoState.fromBytes cr out = .ok s.ownerless ∧
      (out = [] → s.ownerless = RepoState.default) := by
  rw [contract.getStateDelta, contract.decodeParams_eq_ok.mpr hp,
    contract.decodeState_eq_ok.mpr hsb, hsum]
  change ∃ out, (if contract.isEmptyDelta (FreenetGit.getStateDelta s RepoSummary.default) then _
    else _) = Except.ok out ∧ _
  rw [getStateDelta_default]
  split
  · next hempty =>
      have hnone : s.ownerless = RepoState.default := contract.isEmptyDelta_iff.mp hempty
      exact ⟨[], rfl, congrArg Except.ok hnone.symm, fun _ => hnone⟩
  · obtain ⟨out, hout⟩ := bincode.fits_repoState.mpr (RepoState.sized_of_fromBytes hsb).ownerless
    have hout : s.ownerless.toBytes = some out := hout
    rw [hout]
    exact ⟨out, rfl, RepoState.fromBytes_toBytes hout,
      fun h => absurd h (RepoState.toBytes_ne_nil hout)⟩

theorem bootstraps_delta_iff (hp : RepoParams.fromBytes cr pb = .ok params) (hsized : s.Sized)
    (hs : Accepted cr params s) (hdelta : RepoState.fromBytes cr bs = .ok s.ownerless)
    (hempty : bs = [] → s.ownerless = RepoState.default) :
    Bootstraps cr pb (.delta bs) s ↔ s.owner = zeros 32 := by
  rw [bootstraps_iff hp hsized]
  simp only [contract.applyItem, contract.decodeState_eq_ok.mpr hdelta]
  split
  · next hnil =>
      rw [Except.ok.injEq, ← hempty (List.isEmpty_iff.mp hnil), RepoState.ownerless_eq_iff]
  · exact contract.update_eq_ok.trans (updateState_default_iff hs rfl)

/-- **Bootstrapping.**  The default state is neutral on the right of a merge; on the
left it is up to the owner.  So an update of no state with an accepted state, or with
the delta for a summary of nothing, ends in that state exactly when its owner is the
all-zero key. -/
theorem bootstrap_iff (hs : validateState cr params s = .ok ()) :
    mergeState s RepoState.default = s ∧
    mergeState RepoState.default s = { s with owner := zeros 32 } ∧
    (mergeState RepoState.default s = s ↔ s.owner = zeros 32) ∧
    ∀ pb sb, RepoParams.fromBytes cr pb = .ok params → RepoState.fromBytes cr sb = .ok s →
      (Bootstraps cr pb (.state sb) s ↔ s.owner = zeros 32) ∧
      ∀ summary, contract.decodeSummary cr summary = .ok RepoSummary.default →
        ∃ delta, contract.getStateDelta cr pb sb summary = .ok delta ∧
          (Bootstraps cr pb (.delta delta) s ↔ s.owner = zeros 32) := by
  rw [validateState_eq_ok] at hs
  refine ⟨mergeState_default s, default_mergeState s, ?_, fun pb sb hp hsb => ⟨?_, fun summary hsum => ?_⟩⟩
  · rw [default_mergeState, RepoState.ownerless_eq_iff]
  · exact bootstraps_state_iff hp hsb hs
  · obtain ⟨delta, hdelta, hread, hempty⟩ := contract.getStateDelta_ok hp hsb hsum
    exact ⟨delta, hdelta,
      bootstraps_delta_iff hp (RepoState.sized_of_fromBytes hsb) hs hread hempty⟩

/-- The summary of a peer without a state is a summary of nothing. -/
theorem contract.summarizeState_nil (hp : RepoParams.fromBytes cr pb = .ok params) :
    ∃ summary, contract.summarizeState cr pb [] = .ok summary ∧
      contract.decodeSummary cr summary = .ok RepoSummary.default := by
  -- four maps and lists without elements
  have henc : bincode.repoSummary.enc RepoSummary.default = some (List.replicate 32 0) := by
    decide
  refine ⟨List.replicate 32 0, ?_, ?_⟩
  · refine bind_eq_ok.mpr ⟨params, contract.decodeParams_eq_ok.mpr hp,
      bind_eq_ok.mpr ⟨_, contract.decodeState_nil, ?_⟩⟩
    rw [summarizeState_default, henc]
  · rw [contract.decodeSummary, if_neg (by decide), bincode.repoSummary.read_enc henc]

end

/-! An owner whose key is not the all-zero key. -/

namespace Sample

def otherOwner : PublicKey := (zeros 32).set 0 1 hash_pos

def otherParams : RepoParams := RepoParams.fromOwner signerCrypto otherOwner limits.minPrefixLen

/-- A state of that owner, without entries. -/
def unwritten : RepoState := { RepoState.default with owner := otherOwner }

theorem unwritten_accepted : validateState signerCrypto otherParams unwritten = .ok () :=
  validateState_eq_ok.mpr (prefixOk_fromOwner signer_base58 (Nat.le_refl _) (by decide)).accepted

end Sample

theorem bootstrap_iff_race :
    Bootstraps Sample.raceCrypto Sample.paramsBytes (.state (Sample.bytesOf Sample.raceA))
      Sample.raceA :=
  ((bootstrap_iff (Sample.race_accepted _ (.inl rfl)).1).2.2.2 _ _ Sample.fromBytes_params
    Sample.fromBytes_raceA).1.mpr rfl

theorem default_not_neutral :
    validateState Sample.signerCrypto Sample.otherParams Sample.unwritten = .ok () ∧
    mergeState RepoState.default Sample.unwritten ≠ Sample.unwritten := by
  refine ⟨Sample.unwritten_accepted, fun h => ?_⟩
  rw [default_mergeState, RepoState.ownerless_eq_iff] at h
  exact absurd h (by decide)

end FreenetGit
