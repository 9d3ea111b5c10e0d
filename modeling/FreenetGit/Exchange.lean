/-
# `FreenetGit.Exchange` — what one replica tells another, in bytes

A replica asks with its summary and is answered with a delta, or it is sent a full
state.  Each of these is encoded by the one side and decoded by the other: every
summary of a state is read (`contract.summarizeState_ok`), every delta for it is
(`contract.getStateDelta_reads`), and what is sent is merged
(`contract.updateState_sent`).
-/
import FreenetGit.Bootstrap

namespace FreenetGit

open Lib

/-- `Contract::validate_state`; `Valid` is the only result that is no error. -/
def contract.validateState (cr : Crypto) (parameters state : Bytes) :
    Outcome ContractError Unit := do
  let params ← decodeParams cr parameters
  let state ← decodeState cr state
  match FreenetGit.validateState cr params state with
  | .ok () => .ok ()
  | .error .panicked => .error .panicked
  | .error (.err e) => .error (.err (.invalidUpdateWithInfo ("validate_state: " ++ e.display)))

section

variable {cr : Crypto} {params : RepoParams} {s t d : RepoState} {sum : RepoSummary}
  {pb sb bs out : Bytes}

theorem contract.validateState_eq_ok (hp : RepoParams.fromBytes cr pb = .ok params) :
    contract.validateState cr pb sb = .ok () ↔
      ∃ s, RepoState.fromBytes cr sb = .ok s ∧ Accepted cr params s := by
  have hcall : contract.validateState cr pb sb = .ok () ↔
      ∃ s, contract.decodeState cr sb = .ok s ∧
        FreenetGit.validateState cr params s = .ok () := by
    rw [contract.validateState, contract.decodeParams_eq_ok.mpr hp]
    change (contract.decodeState cr sb >>= _) = .ok () ↔ _
    rw [bind_eq_ok]
    refine exists_congr fun s => and_congr_right fun _ => ?_
    split
    · next hok => simp only [hok]
    · next herr => simp only [herr, reduceCtorEq]
    · next herr => simp only [herr, reduceCtorEq]
  simp only [hcall, contract.decodeState_eq_ok, FreenetGit.validateState_eq_ok]

/-! ## Summaries -/

/-- The map of field numbers has at most one key for each field. -/
structure FieldSeqs (n : Nat) (seqs : BTreeMap String UInt64) : Prop where
  size : seqs.size ≤ n
  key : ∀ (k : String) (v : UInt64), seqs[k]? = some v → (utf8 k).length < 2 ^ 64

theorem FieldSeqs.insertSeq {T : Type} {n : Nat} {seqs : BTreeMap String UInt64}
    (h : FieldSeqs n seqs) (key : String) (hkey : (utf8 key).length < 2 ^ 64)
    (field : Option (SignedField T)) : FieldSeqs (n + 1) (insertSeq key field seqs) := by
  cases field with
  | none => exact ⟨h.size.trans (Nat.le_succ n), h.key⟩
  | some f =>
      refine ⟨Std.ExtTreeMap.size_insert_le.trans (Nat.succ_le_succ h.size), fun k v hk => ?_⟩
      have hk : (seqs.insert key f.updateSeq)[k]? = some v := hk
      rw [getElem?_insert_eq] at hk
      split at hk
      · next heq => exact heq ▸ hkey
      · exact h.key k v hk

theorem fieldSeqs_summarizeState (s : RepoState) : FieldSeqs 6 (summarizeState s).fieldSeqs := by
  have hempty : FieldSeqs 0 ∅ :=
    ⟨Nat.le_refl 0, fun k v hk => nomatch Std.ExtTreeMap.getElem?_empty.symm.trans hk⟩
  have hname := hempty.insertSeq "name" (by decide) s.name
  have hdescription := hname.insertSeq "description" (by decide) s.description
  have hbranch := hdescription.insertSeq "default_branch" (by decide) s.defaultBranch
  have hforce := hbranch.insertSeq "force_push_allowed" (by decide) s.forcePushAllowed
  have hacl := hforce.insertSeq "acl" (by decide) s.acl
  exact hacl.insertSeq "upgrade" (by decide) s.upgrade

theorem fits_seqs {V : Type} {seq : V → UInt64} {m : BTreeMap String V} (hsize : m.size < 2 ^ 64)
    (hkey : ∀ (k : String) (v : V), m[k]? = some v → (utf8 k).length < 2 ^ 64) :
    (Codec.map .string .u64).Fits
      (m.foldl (fun (s : BTreeMap String UInt64) k v => s.insert k (seq v)) ∅) := by
  rw [Codec.fits_map]
  refine ⟨lt_of_le_of_lt (size_le_of_forall fun k v hv => ?_) hsize, fun k v hv => ?_⟩
  all_goals
    rw [getElem?_seqs, Option.map_eq_some_iff] at hv
    obtain ⟨e, he, -⟩ := hv
  · exact ⟨e, he⟩
  · exact ⟨Codec.fits_string.mpr (hkey k e he), Codec.fits_u64 v⟩

/-- The summary of a state with an encoding has one. -/
theorem fits_summarizeState (hs : s.Sized) : bincode.repoSummary.Fits (summarizeState s) := by
  obtain ⟨hfields, hfieldKeys⟩ := fieldSeqs_summarizeState s
  rw [bincode.repoSummary, Codec.fits_imap, Codec.fits_pair, Codec.fits_pair, Codec.fits_pair]
  refine ⟨?_, ?_, ?_, ?_⟩
  · rw [Codec.fits_map]
    exact ⟨lt_of_le_of_lt hfields (by decide),
      fun k v hk => ⟨Codec.fits_string.mpr (hfieldKeys k v hk), Codec.fits_u64 v⟩⟩
  · exact fits_seqs hs.refs fun n e he => hs.slot (.ref n) e he
  · rw [Codec.fits_list]
    refine ⟨?_, fun id _ => Codec.fits_array id⟩
    rw [summarizeState, Std.ExtTreeMap.length_keys]
    exact hs.objectIndex
  · exact fits_seqs hs.extensions fun k e he => (hs.slot (.extension k) e he).1

/-- The encoding of a summary starts with the length of a map. -/
theorem repoSummary_ne_nil (h : bincode.repoSummary.enc sum = some bs) : bs ≠ [] := by
  rintro rfl
  have hread := bincode.repoSummary.read_enc h
  cases hread

/-- Every replica can be asked for its summary, and every other can read it. -/
theorem contract.summarizeState_ok (hp : RepoParams.fromBytes cr pb = .ok params)
    (hs : RepoState.fromBytes cr sb = .ok s) :
    ∃ bs, contract.summarizeState cr pb sb = .ok bs ∧
      contract.decodeSummary cr bs = .ok (FreenetGit.summarizeState s) := by
  obtain ⟨bs, hbs⟩ := fits_summarizeState (RepoState.sized_of_fromBytes hs)
  refine ⟨bs, ?_, ?_⟩
  · refine bind_eq_ok.mpr ⟨params, contract.decodeParams_eq_ok.mpr hp,
      bind_eq_ok.mpr ⟨s, contract.decodeState_eq_ok.mpr hs, ?_⟩⟩
    rw [hbs]
  · rw [contract.decodeSummary, if_neg fun h => repoSummary_ne_nil hbs (List.isEmpty_iff.mp h),
      bincode.repoSummary.read_enc hbs]

/-! ## Deltas -/

theorem RepoState.Sized.of_kept (hs : s.Sized) (hd : KeptFrom s d) : d.Sized where
  slot σ e he := hs.slot σ e (hd.slot σ e he)
  refs := (size_le_of_forall fun n e he => ⟨e, hd.slot (.ref n) e he⟩).trans_lt hs.refs
  objectIndex :=
    (size_le_of_forall fun id r hr => ⟨r, hd.record id r hr⟩).trans_lt hs.objectIndex
  extensions :=
    (size_le_of_forall fun k e he => ⟨e, hd.slot (.extension k) e he⟩).trans_lt hs.extensions

/-- Every summary that can be read is answered, and the answer is read as the delta; the
empty answer is read as the state without entries, which the delta then is. -/
theorem contract.getStateDelta_reads (hp : RepoParams.fromBytes cr pb = .ok params)
    (hs : RepoState.fromBytes cr sb = .ok s) (hsum : contract.decodeSummary cr bs = .ok sum) :
    ∃ out, contract.getStateDelta cr pb sb bs = .ok out ∧
      RepoState.fromBytes cr out = .ok (FreenetGit.getStateDelta s sum) := by
  rw [contract.getStateDelta, contract.decodeParams_eq_ok.mpr hp,
    contract.decodeState_eq_ok.mpr hs, hsum]
  change ∃ out, (if contract.isEmptyDelta (FreenetGit.getStateDelta s sum) then _ else _) =
    Except.ok out ∧ _
  split
  · next hempty =>
      have hownerless : (FreenetGit.getStateDelta s sum).ownerless =
          FreenetGit.getStateDelta s sum := RepoState.ownerless_eq_iff.mpr rfl
      have hdefault := contract.isEmptyDelta_iff.mp hempty
      rw [hownerless] at hdefault
      exact ⟨[], rfl, congrArg Except.ok hdefault.symm⟩
  · obtain ⟨out, hout⟩ := bincode.fits_repoState.mpr
      ((RepoState.sized_of_fromBytes hs).of_kept (keptFrom_getStateDelta s sum))
    have hout : (FreenetGit.getStateDelta s sum).toBytes = some out := hout
    rw [hout]
    exact ⟨out, rfl, RepoState.fromBytes_toBytes hout⟩

/-! ## Updates -/

/-- The update carries the bytes of one state. -/
def UpdateData.Carries (u : UpdateData) (bs : Bytes) : Prop := u = .state bs ∨ u = .delta bs

variable {u : UpdateData} {data : List UpdateData}

/-- What an update carries is merged, if the merge is accepted. -/
theorem contract.applyItem_carried (hu : u.Carries bs) (hd : RepoState.fromBytes cr bs = .ok d)
    (hacc : Accepted cr params (mergeState s d)) :
    contract.applyItem cr params s u = .ok (mergeState s d) := by
  have hmerge : ∀ label, contract.update cr label params s d = .ok (mergeState s d) := fun label =>
    contract.update_eq_ok.mpr (FreenetGit.updateState_eq_ok.mpr ⟨rfl, hacc⟩)
  rcases hu with rfl | rfl
  · exact bind_eq_ok.mpr ⟨d, contract.decodeState_eq_ok.mpr hd, hmerge _⟩
  · rw [contract.applyItem]
    split
    · next hempty =>
        -- no bytes stand for no entries
        rw [List.isEmpty_iff.mp hempty] at hd
        cases hd
        rw [mergeState_default]
    · exact bind_eq_ok.mpr ⟨d, contract.decodeState_eq_ok.mpr hd, hmerge _⟩

theorem contract.updateState_carried (hp : RepoParams.fromBytes cr pb = .ok params)
    (hs : RepoState.fromBytes cr sb = .ok s) (hu : u.Carries bs)
    (hd : RepoState.fromBytes cr bs = .ok d) (hacc : Accepted cr params (mergeState s d)) :
    contract.updateState cr pb sb [u] = contract.encodeState cr (mergeState s d) := by
  rw [contract.updateState, contract.decodeParams_eq_ok.mpr hp, contract.decodeState_eq_ok.mpr hs]
  change ([u].foldlM (contract.applyItem cr params) s >>= contract.encodeState cr) = _
  rw [List.foldlM_cons, contract.applyItem_carried hu hd hacc]
  rfl

/-- What an update carries is all it merges. -/
theorem contract.applyItem_carried_eq (hu : u.Carries bs) (hd : RepoState.fromBytes cr bs = .ok d)
    (h : contract.applyItem cr params s u = .ok t) : t = mergeState s d := by
  have hupdate : ∀ label, (do
      let delta ← contract.decodeState cr bs
      contract.update cr label params s delta : Outcome ContractError RepoState) = .ok t →
        t = mergeState s d := by
    intro label h
    obtain ⟨d', hd', h⟩ := bind_eq_ok.mp h
    rw [contract.decodeState_eq_ok, hd] at hd'
    cases hd'
    exact (FreenetGit.updateState_eq_ok.mp (contract.update_eq_ok.mp h)).1
  rcases hu with rfl | rfl
  · exact hupdate _ h
  · rw [contract.applyItem] at h
    split at h
    · next hempty =>
        rw [List.isEmpty_iff.mp hempty] at hd
        cases hd
        cases h
        exact (mergeState_default s).symm
    · exact hupdate _ h

theorem contract.updateState_carried_ok (hp : RepoParams.fromBytes cr pb = .ok params)
    (hs : RepoState.fromBytes cr sb = .ok s) (hu : u.Carries bs)
    (hd : RepoState.fromBytes cr bs = .ok d) (h : contract.updateState cr pb sb [u] = .ok out) :
    RepoState.fromBytes cr out = .ok (mergeState s d) := by
  obtain ⟨t, hitems, hout⟩ := (contract.updateState_eq_ok (contract.decodeParams_eq_ok.mpr hp)
    (contract.decodeState_eq_ok.mpr hs)).mp h
  rw [List.foldlM_cons, bind_eq_ok] at hitems
  obtain ⟨x, hx, hxt⟩ := hitems
  cases hxt
  rw [← contract.applyItem_carried_eq hu hd hx]
  exact RepoState.fromBytes_toBytes hout

/-- The states that an update tells of. -/
def UpdateData.told (cr : Crypto) : UpdateData → Set RepoState
  | .state bytes | .delta bytes => {d | RepoState.fromBytes cr bytes = .ok d}
  | .stateAndDelta bytes bytes' =>
      {d | RepoState.fromBytes cr bytes = .ok d ∨ RepoState.fromBytes cr bytes' = .ok d}
  | .relatedState | .relatedDelta | .relatedStateAndDelta | .unknown => ∅

/-- `t` is `s` after merging the states of `T`, each at least once. -/
def Merges (s : RepoState) (T : Set RepoState) (t : RepoState) : Prop :=
  ∃ ds : List RepoState, T = {d | d ∈ ds} ∧ t = ds.foldl mergeState s

theorem Merges.one (hd : RepoState.fromBytes cr bs = .ok d) :
    Merges s {d | RepoState.fromBytes cr bs = .ok d} (mergeState s d) := by
  refine ⟨[d], Set.ext fun x => ?_, rfl⟩
  rw [Set.mem_ofPred_eq, Set.mem_ofPred_eq, List.mem_singleton, hd, Except.ok.injEq, eq_comm]

theorem Merges.trans {x : RepoState} {T T' : Set RepoState} (h : Merges s T t)
    (h' : Merges t T' x) : Merges s (T ∪ T') x := by
  obtain ⟨ds, rfl, rfl⟩ := h
  obtain ⟨ds', rfl, rfl⟩ := h'
  refine ⟨ds ++ ds', Set.ext fun d => List.mem_append.symm, List.foldl_append.symm⟩

theorem contract.update_merges {label : String} (hd : contract.decodeState cr bs = .ok d)
    (h : contract.update cr label params s d = .ok t) :
    Merges s {d | RepoState.fromBytes cr bs = .ok d} t := by
  rw [(FreenetGit.updateState_eq_ok.mp (contract.update_eq_ok.mp h)).1]
  exact Merges.one (contract.decodeState_eq_ok.mp hd)

/-- A delta without bytes is skipped, which is what merging it would do. -/
theorem contract.delta_merges {label : String}
    (h : (if bs.isEmpty then .ok s else do
      let delta ← contract.decodeState cr bs
      contract.update cr label params s delta : Outcome ContractError RepoState) = .ok t) :
    Merges s {d | RepoState.fromBytes cr bs = .ok d} t := by
  split at h
  · next hempty =>
      cases h
      have hd : RepoState.fromBytes cr bs = .ok RepoState.default := by
        rw [List.isEmpty_iff.mp hempty]
        rfl
      have hone := Merges.one (s := s) hd
      rwa [mergeState_default] at hone
  · obtain ⟨d, hd, h⟩ := bind_eq_ok.mp h
    exact contract.update_merges hd h

theorem contract.applyItem_merges (h : contract.applyItem cr params s u = .ok t) :
    Merges s (u.told cr) t := by
  cases u with
  | state bytes =>
      obtain ⟨d, hd, h⟩ := bind_eq_ok.mp h
      exact contract.update_merges hd h
  | delta bytes => exact contract.delta_merges h
  | stateAndDelta state delta =>
      obtain ⟨d, hd, h⟩ := bind_eq_ok.mp h
      obtain ⟨x, hx, h⟩ := bind_eq_ok.mp h
      exact (contract.update_merges hd hx).trans (contract.delta_merges h)
  | relatedState | relatedDelta | relatedStateAndDelta | unknown => cases h

theorem contract.items_merges : ∀ {data : List UpdateData} {s : RepoState},
    data.foldlM (contract.applyItem cr params) s = .ok t →
      Merges s {d | ∃ u ∈ data, d ∈ u.told cr} t
  | [], s, h => by
      cases h
      exact ⟨[], by simp, rfl⟩
  | u :: data, s, h => by
      rw [List.foldlM_cons] at h
      obtain ⟨x, hx, h⟩ := bind_eq_ok.mp h
      have hall := (contract.applyItem_merges hx).trans (contract.items_merges h)
      have hset : {d | ∃ v ∈ u :: data, d ∈ v.told cr} =
          u.told cr ∪ {d | ∃ v ∈ data, d ∈ v.told cr} := by
        ext d
        simp
      rwa [hset]

/-- **A successful call** merges what its updates tell of into the state. -/
theorem contract.updateState_merges (hp : RepoParams.fromBytes cr pb = .ok params)
    (hs : RepoState.fromBytes cr sb = .ok s)
    (h : contract.updateState cr pb sb data = .ok out) :
    ∃ t, RepoState.fromBytes cr out = .ok t ∧ Merges s {d | ∃ u ∈ data, d ∈ u.told cr} t := by
  obtain ⟨t, hitems, hout⟩ := (contract.updateState_eq_ok (contract.decodeParams_eq_ok.mpr hp)
    (contract.decodeState_eq_ok.mpr hs)).mp h
  exact ⟨t, RepoState.fromBytes_toBytes hout, contract.items_merges hitems⟩

end

end FreenetGit
