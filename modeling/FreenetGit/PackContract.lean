/-
# `FreenetGit.PackContract` — packs are immutable

The parameters of a pack contract are the hash of the pack, and its only state is
the pack.  The host may send any list of updates; the working state is replaced
update by update, and an error gives the whole call up.  As long as the hash does
not collide on what was sent, a call succeeds exactly when every update is the
pack itself (`packContract.updateState_eq_ok_iff`), so no call of any run changes
the bytes (`pack_immutable`).
-/
import FreenetGit.Contract
import FreenetGit.Lib.Run

namespace FreenetGit

open Lib

namespace packContract

/-- `PACK_HASH_BYTES`. -/
def packHashBytes : Nat := 32

/-- `Contract::validate_state` of the pack contract. -/
def validateState (cr : Crypto) (parameters state : Bytes) : Except ContractError Unit :=
  if parameters.length ≠ packHashBytes then
    .error (.invalidUpdateWithInfo ("pack contract parameters must be exactly " ++
      toString packHashBytes ++ " bytes (the BLAKE3-32 of the pack)"))
  else
    match toArray? 32 parameters with
    | none => .error .invalidUpdate
    | some expected =>
        if cr.blake3 state = expected then .ok ()
        else .error (.invalidUpdateWithInfo "pack contract state hash does not match parameters")

/-- The body of the loop over the updates: the working state afterwards. -/
def applyItem (cr : Crypto) (parameters : Bytes) (_current : Bytes) :
    UpdateData → Except ContractError Bytes
  | .state newState => do
      validateState cr parameters newState
      .ok newState
  | .delta _ | .stateAndDelta _ _ | .relatedState | .relatedDelta | .relatedStateAndDelta =>
      .error (.invalidUpdateWithInfo "pack contracts only accept full-state updates")
  | .unknown => .error .invalidUpdate

/-- `Contract::update_state` of the pack contract. -/
def updateState (cr : Crypto) (parameters state : Bytes) (data : List UpdateData) :
    Except ContractError Bytes :=
  data.foldlM (applyItem cr parameters) state

end packContract

/-- The byte strings that an update brings as a state. -/
def UpdateData.states : UpdateData → Set Bytes
  | .state bytes => {bytes}
  | _ => ∅

/-- The host calls the contract: it stores the new state, or keeps the old one. -/
def PackCall (cr : Crypto) (parameters : Bytes) (sb : Bytes) (data : List UpdateData)
    (sb' : Bytes) : Prop :=
  match packContract.updateState cr parameters sb data with
  | .ok new => sb' = new
  | .error _ => sb' = sb

/-- What was hashed in a run: the first state, and every state that was sent. -/
def packHashed (sb₀ : Bytes) (tr : List (Transition Bytes (List UpdateData))) : Set Bytes :=
  insert sb₀ {bs | ∃ t ∈ tr, ∃ u ∈ t.event, bs ∈ u.states}

section

variable {cr : Crypto} {parameters pack sb sb' : Bytes}

theorem packContract.validateState_eq_ok :
    packContract.validateState cr parameters sb = .ok () ↔ (cr.blake3 sb).toList = parameters := by
  unfold packContract.validateState
  split
  · next hlen =>
      refine ⟨nofun, fun h => absurd ?_ hlen⟩
      rw [← h, Vector.length_toList, packHashBytes]
  · split
    · next hnone =>
        refine ⟨nofun, fun h => ?_⟩
        rw [← h, toArray?_toList] at hnone
        cases hnone
    · next expected hsome =>
        have hlist := length_of_toArray? hsome
        split
        · next heq => exact ⟨fun _ => by rw [heq, hlist], fun _ => rfl⟩
        · next hne =>
            exact ⟨nofun, fun h => absurd (Vector.toList_inj.mp (h.trans hlist)) hne⟩

/-- An update is taken exactly when it is the pack. -/
theorem packContract.applyItem_eq_ok {current : Bytes} {u : UpdateData}
    (hv : packContract.validateState cr parameters pack = .ok ())
    (hcr : (insert pack u.states).InjOn cr.blake3) :
    packContract.applyItem cr parameters current u = .ok sb' ↔ u = .state pack ∧ sb' = pack := by
  constructor
  · intro h
    cases u with
    | state newState =>
        obtain ⟨⟨⟩, hbytes, h⟩ := bind_eq_ok.mp h
        cases h
        have hhash : cr.blake3 sb' = cr.blake3 pack := Vector.toList_inj.mp
          ((validateState_eq_ok.mp hbytes).trans (validateState_eq_ok.mp hv).symm)
        have heq := hcr (.inr rfl) (.inl rfl) hhash
        exact ⟨congrArg UpdateData.state heq, heq⟩
    | delta | stateAndDelta | relatedState | relatedDelta | relatedStateAndDelta | unknown => cases h
  · rintro ⟨rfl, rfl⟩
    exact bind_eq_ok.mpr ⟨(), hv, rfl⟩

/-- **A call succeeds exactly when every update is the pack**, and then it answers the pack. -/
theorem packContract.updateState_eq_ok_iff :
    ∀ {data : List UpdateData} (_ : packContract.validateState cr parameters pack = .ok ())
      (_ : (insert pack {bs | ∃ u ∈ data, bs ∈ u.states}).InjOn cr.blake3),
      packContract.updateState cr parameters pack data = .ok sb' ↔
        (∀ u ∈ data, u = .state pack) ∧ sb' = pack
  | [], _, _ => by
      constructor
      · intro h
        cases h
        exact ⟨nofun, rfl⟩
      · rintro ⟨-, rfl⟩
        rfl
  | u :: data, hv, hcr => by
      have hhead : (insert pack u.states).InjOn cr.blake3 := by
        refine hcr.mono (Set.insert_subset_insert fun bs hbs => ?_)
        exact ⟨u, List.mem_cons_self, hbs⟩
      have htail : (insert pack {bs | ∃ u ∈ data, bs ∈ u.states}).InjOn cr.blake3 := by
        refine hcr.mono (Set.insert_subset_insert ?_)
        rintro bs ⟨v, hv, hbs⟩
        exact ⟨v, List.mem_cons_of_mem _ hv, hbs⟩
      have ih := packContract.updateState_eq_ok_iff hv htail
      rw [updateState] at ih ⊢
      rw [List.foldlM_cons, bind_eq_ok]
      constructor
      · rintro ⟨current, hu, h⟩
        obtain ⟨rfl, rfl⟩ := (applyItem_eq_ok hv hhead).mp hu
        obtain ⟨hall, rfl⟩ := ih.mp h
        exact ⟨List.forall_mem_cons.mpr ⟨rfl, hall⟩, rfl⟩
      · rintro ⟨hall, rfl⟩
        obtain ⟨rfl, hrest⟩ := List.forall_mem_cons.mp hall
        exact ⟨sb', (applyItem_eq_ok hv hhead).mpr ⟨rfl, rfl⟩, ih.mpr ⟨hrest, rfl⟩⟩

/-- **Pack contracts are immutable.**  Over every run of calls from an accepted
state, the bytes stay what they are; a call whose updates are all that state
succeeds, and a call with any other update fails. -/
theorem pack_immutable {sb₀ : Bytes} {tr : List (Transition Bytes (List UpdateData))}
    (hv : packContract.validateState cr parameters sb₀ = .ok ())
    (hrun : Run (PackCall cr parameters) sb₀ tr sb) (hcr : (packHashed sb₀ tr).InjOn cr.blake3) :
    sb = sb₀ ∧ ∀ t ∈ tr, t.before = sb₀ ∧ t.after = sb₀ ∧
      ((∀ u ∈ t.event, u = .state sb₀) →
        packContract.updateState cr parameters t.before t.event = .ok sb₀) ∧
      ((∃ u ∈ t.event, u ≠ .state sb₀) →
        ∃ e, packContract.updateState cr parameters t.before t.event = .error e) := by
  induction hrun with
  | nil => exact ⟨rfl, nofun⟩
  | @snoc tr s s' data hrun hstep ih =>
      have hold : packHashed sb₀ tr ⊆ packHashed sb₀ (tr ++ [⟨s, data, s'⟩]) := by
        refine Set.insert_subset_insert ?_
        rintro bs ⟨t, ht, hbs⟩
        exact ⟨t, List.mem_append_left _ ht, hbs⟩
      obtain ⟨rfl, ih⟩ := ih (hcr.mono hold)
      have hdata : (insert s {bs | ∃ u ∈ data, bs ∈ u.states}).InjOn cr.blake3 := by
        refine hcr.mono (Set.insert_subset_insert ?_)
        rintro bs hbs
        exact ⟨⟨s, data, s'⟩, List.mem_append_right _ (List.mem_singleton_self _), hbs⟩
      have hiff : ∀ {new}, packContract.updateState cr parameters s data = .ok new ↔ _ :=
        packContract.updateState_eq_ok_iff hv hdata
      have hafter : s' = s := by
        unfold PackCall at hstep
        split at hstep
        · next new hnew => exact hstep.trans (hiff.mp hnew).2
        · exact hstep
      subst hafter
      refine ⟨rfl, fun t ht => ?_⟩
      rcases List.mem_append.mp ht with ht | ht
      · exact ih t ht
      · cases List.mem_singleton.mp ht
        refine ⟨rfl, rfl, fun hall => hiff.mpr ⟨hall, rfl⟩, ?_⟩
        rintro ⟨u, hu, hne⟩
        cases hcall : packContract.updateState cr parameters s' data with
        | ok new => exact absurd ((hiff.mp hcall).1 u hu) hne
        | error e => exact ⟨e, rfl⟩

end

/-! A pack of one byte, that is sent again and then another one. -/

namespace Sample

def onePack : Bytes := [1]

def packParameters : Bytes := (hash onePack).toList

def packTrace : List (Transition Bytes (List UpdateData)) :=
  [⟨onePack, [.state onePack], onePack⟩, ⟨onePack, [.state onePack, .state [2]], onePack⟩]

theorem pack_run : Run (PackCall unsigned packParameters) onePack packTrace onePack :=
  (Run.nil.snoc rfl).snoc rfl

theorem packTrace_injOn : (packHashed onePack packTrace).InjOn hash := by
  have hmem : ∀ bs ∈ packHashed onePack packTrace, bs = [1] ∨ bs = [2] := by
    rintro bs (rfl | ⟨t, ht, u, hu, hbs⟩)
    · exact .inl rfl
    · simp only [packTrace, List.mem_cons, List.not_mem_nil, or_false] at ht
      rcases ht with rfl | rfl <;>
        simp only [List.mem_cons, List.not_mem_nil, or_false] at hu
      · subst hu
        exact .inl hbs
      · rcases hu with rfl | rfl
        · exact .inl hbs
        · exact .inr hbs
  have hne : hash [1] ≠ hash [2] := by decide
  intro x hx y hy h
  rcases hmem x hx with rfl | rfl <;> rcases hmem y hy with rfl | rfl
  · rfl
  · exact absurd h hne
  · exact absurd h.symm hne
  · rfl

end Sample

theorem pack_immutable_one : Sample.onePack = Sample.onePack ∧ ∀ t ∈ Sample.packTrace,
    t.before = Sample.onePack ∧ t.after = Sample.onePack ∧
      ((∀ u ∈ t.event, u = .state Sample.onePack) →
        packContract.updateState Sample.unsigned Sample.packParameters t.before t.event =
          .ok Sample.onePack) ∧
      ((∃ u ∈ t.event, u ≠ .state Sample.onePack) → ∃ e,
        packContract.updateState Sample.unsigned Sample.packParameters t.before t.event = .error e) :=
  pack_immutable (packContract.validateState_eq_ok.mpr rfl) Sample.pack_run Sample.packTrace_injOn

end FreenetGit
