/-
# `FreenetGit.Sync` — summaries and deltas

A replica sends a summary, the sequence number of every slot it holds and the
ids of its bundles, and gets back a delta, the entries that are newer than the
summary says.  Read slot by slot (`getStateDelta_at`), a delta leaves out an
entry with an equal number, whatever its content, while the merge of the full
states would choose between the two by signature.
-/
import FreenetGit.Convergence

namespace FreenetGit

open Lib

/-! ## Summaries and deltas -/

structure RepoSummary where
  fieldSeqs : BTreeMap String UInt64
  refSeqs : BTreeMap RefName UInt64
  bundleIds : List ObjectBundleId
  extensionSeqs : BTreeMap String UInt64
deriving DecidableEq

/-- `if let Some(f) = field { seqs.insert(key, f.update_seq); }` -/
def insertSeq {T : Type} (key : String) (field : Option (SignedField T))
    (seqs : BTreeMap String UInt64) : BTreeMap String UInt64 :=
  match field with
  | none => seqs
  | some f => seqs.insert key f.updateSeq

def summarizeState (state : RepoState) : RepoSummary where
  fieldSeqs := insertSeq "upgrade" state.upgrade (insertSeq "acl" state.acl
    (insertSeq "force_push_allowed" state.forcePushAllowed
    (insertSeq "default_branch" state.defaultBranch
    (insertSeq "description" state.description (insertSeq "name" state.name ∅)))))
  refSeqs := state.refs.foldl (fun s k v => s.insert k v.updateSeq) ∅
  bundleIds := state.objectIndex.keys
  extensionSeqs := state.extensions.foldl (fun s k v => s.insert k v.updateSeq) ∅

/-- `a > b` on `Option<u64>`, where `None` is below every number. -/
def optionGt : Option UInt64 → Option UInt64 → Bool
  | some a, some b => b < a
  | some _, none => true
  | none, _ => false

/-- A field of the delta: the field of the state if its number is above the summary's. -/
def newerField {T : Type} (field : Option (SignedField T)) (summary : RepoSummary) (key : String) :
    Option (SignedField T) :=
  if optionGt (field.map (·.updateSeq)) summary.fieldSeqs[key]? then field else none

/-- The test of the loops over refs and extensions: absent is not the same as zero. -/
def peerNeeds (seqs : BTreeMap String UInt64) (k : String) (updateSeq : UInt64) : Bool :=
  match seqs[k]? with
  | none => true
  | some seq => seq < updateSeq

def getStateDelta (state : RepoState) (summary : RepoSummary) : RepoState :=
  { RepoState.default with
    name := newerField state.name summary "name"
    description := newerField state.description summary "description"
    defaultBranch := newerField state.defaultBranch summary "default_branch"
    forcePushAllowed := newerField state.forcePushAllowed summary "force_push_allowed"
    acl := newerField state.acl summary "acl"
    upgrade := newerField state.upgrade summary "upgrade"
    refs := state.refs.foldl (fun d k v =>
      if peerNeeds summary.refSeqs k v.updateSeq then d.insert k v else d) ∅
    objectIndex := state.objectIndex.foldl (fun d k v =>
      if !summary.bundleIds.contains k then d.insert k v else d) ∅
    extensions := state.extensions.foldl (fun d k v =>
      if peerNeeds summary.extensionSeqs k v.updateSeq then d.insert k v else d) ∅ }

/-! ## Read slot by slot -/

/-- The sequence number a summary gives for a slot. -/
def RepoSummary.at (s : RepoSummary) : Slot → Option UInt64
  | .name => s.fieldSeqs["name"]?
  | .description => s.fieldSeqs["description"]?
  | .defaultBranch => s.fieldSeqs["default_branch"]?
  | .forcePushAllowed => s.fieldSeqs["force_push_allowed"]?
  | .acl => s.fieldSeqs["acl"]?
  | .upgrade => s.fieldSeqs["upgrade"]?
  | .ref n => s.refSeqs[n]?
  | .extension k => s.extensionSeqs[k]?

theorem getElem?_insertSeq {T : Type} (key k : String) (field : Option (SignedField T))
    (seqs : BTreeMap String UInt64) :
    (insertSeq key field seqs)[k]? =
      if key = k then (field.map (·.updateSeq)).or seqs[k]? else seqs[k]? := by
  cases field with
  | none => exact (ite_self _).symm
  | some f => exact getElem?_insert_eq

theorem getElem?_seqs {V : Type} (seq : V → UInt64) (m : BTreeMap String V) (k : String) :
    (m.foldl (fun (s : BTreeMap String UInt64) k v => s.insert k (seq v)) ∅)[k]? =
      m[k]?.map seq := by
  refine (getElem?_foldl (actsAt_insertIf (fun _ _ => true) fun _ v => seq v) m ∅ k).trans ?_
  cases m[k]? <;> simp

/-- A summary gives the number of every entry. -/
theorem summarizeState_at (s : RepoState) : ∀ σ : Slot,
    (summarizeState s).at σ = (s.at σ).map σ.updateSeq
  | .name | .description | .defaultBranch | .forcePushAllowed | .acl | .upgrade => by
      -- the six keys differ, so each is read past the others
      simp [RepoSummary.at, summarizeState, getElem?_insertSeq, RepoState.at]
      rfl
  | .ref n => getElem?_seqs RefEntry.updateSeq s.refs n
  | .extension k => getElem?_seqs ExtensionEntry.updateSeq s.extensions k

/-- An entry is newer than a summary says. -/
def Slot.newer (σ : Slot) (e : σ.Entry) : Option UInt64 → Bool
  | none => true
  | some seq => seq < σ.updateSeq e

theorem newerField_eq {T : Type} (field : Option (SignedField T)) (sum : RepoSummary)
    (key : String) :
    newerField field sum key =
      field.filter fun f => match sum.fieldSeqs[key]? with
        | none => true
        | some seq => seq < f.updateSeq := by
  cases field with
  | none => exact ite_self _
  | some f =>
      simp only [newerField, Option.filter, Option.map_some]
      cases sum.fieldSeqs[key]? <;> rfl

/-- **A delta at a slot** is the entry, if it is newer than the summary says. -/
theorem getStateDelta_at (s : RepoState) (sum : RepoSummary) : ∀ σ : Slot,
    (getStateDelta s sum).at σ = (s.at σ).filter fun e => σ.newer e (sum.at σ)
  | .name | .description | .defaultBranch | .forcePushAllowed | .acl | .upgrade =>
      newerField_eq _ sum _
  | .ref n => by
      refine (getElem?_foldl (actsAt_insertIf (fun k (v : RefEntry) =>
        peerNeeds sum.refSeqs k v.updateSeq) fun _ v => v) s.refs ∅ n).trans ?_
      simp only [RepoState.at]
      cases s.refs[n]? with
      | none => exact Std.ExtTreeMap.getElem?_empty
      | some e => rfl
  | .extension k => by
      refine (getElem?_foldl (actsAt_insertIf (fun k (v : ExtensionEntry) =>
        peerNeeds sum.extensionSeqs k v.updateSeq) fun _ v => v) s.extensions ∅ k).trans ?_
      simp only [RepoState.at]
      cases s.extensions[k]? with
      | none => exact Std.ExtTreeMap.getElem?_empty
      | some e => rfl

theorem mem_bundleIds {s : RepoState} {id : ObjectBundleId} :
    id ∈ (summarizeState s).bundleIds ↔ id ∈ s.objectIndex := Std.ExtTreeMap.mem_keys

/-- A delta has the bundles that the summary does not list. -/
theorem getStateDelta_objectIndex (s : RepoState) (sum : RepoSummary) (id : ObjectBundleId) :
    (getStateDelta s sum).objectIndex[id]? =
      if id ∈ sum.bundleIds then none else s.objectIndex[id]? := by
  refine (getElem?_foldl (actsAt_insertIf (fun k (_ : ObjectBundleRecord) =>
    !sum.bundleIds.contains k) fun _ v => v) s.objectIndex ∅ id).trans ?_
  by_cases h : id ∈ sum.bundleIds <;> cases s.objectIndex[id]? <;> simp [h]

/-! ## Applying the delta

`b` sends its summary to `a` and applies the delta it gets back. -/

section

variable {cr : Crypto} {params : RepoParams} {a b : RepoState}

/-- What `b` holds after applying `a`'s delta. -/
def syncFrom (a b : RepoState) : RepoState := mergeState b (getStateDelta a (summarizeState b))

theorem syncFrom_at (σ : Slot) : (syncFrom a b).at σ =
    σ.picker.pickOpt (b.at σ)
      ((a.at σ).filter fun e => σ.newer e ((b.at σ).map σ.updateSeq)) := by
  rw [syncFrom, mergeState_at, getStateDelta_at, summarizeState_at]

/-- At a slot the delta does what the full state does, unless `a` holds an entry
with the same number that wins by its signature. -/
theorem syncFrom_at_eq_iff (σ : Slot) :
    (syncFrom a b).at σ = (mergeState b a).at σ ↔
      ∀ ea eb, a.at σ = some ea → b.at σ = some eb → σ.updateSeq ea = σ.updateSeq eb →
        σ.picker.pick eb ea = eb := by
  rw [syncFrom_at, mergeState_at]
  cases ha : a.at σ with
  | none => simp
  | some ea =>
      cases hb : b.at σ with
      | none => simp [Option.filter, Slot.newer]
      | some eb =>
          simp only [Option.map_some, Option.filter, Slot.newer, decide_eq_true_eq,
            Option.some.injEq]
          by_cases hlt : σ.updateSeq eb < σ.updateSeq ea
          · rw [if_pos hlt]
            refine ⟨?_, fun _ => rfl⟩
            rintro - _ _ rfl rfl heq
            exact absurd hlt (heq ▸ UInt64.lt_irrefl _)
          · rw [if_neg hlt, Picker.pickOpt_none_right, Picker.pickOpt_some_some,
              Option.some.injEq]
            constructor
            · rintro h _ _ rfl rfl -
              exact h.symm
            · intro h
              by_cases heq : σ.updateSeq ea = σ.updateSeq eb
              · exact (h ea eb rfl rfl heq).symm
              · -- the number of `b` is higher, so its entry wins by number
                have hgt : σ.updateSeq ea < σ.updateSeq eb :=
                  (UInt64.lt_or_lt_of_ne heq).resolve_right hlt
                exact (if_pos (pickHigherSeq_iff.mpr (.inl hgt))).symm

/-- The bundles of the delta are those the merge would add. -/
theorem syncFrom_objectIndex (a b : RepoState) :
    (syncFrom a b).objectIndex = (mergeState b a).objectIndex := by
  refine Std.ExtTreeMap.ext_getElem? fun id => ?_
  rw [syncFrom, mergeState_objectIndex, mergeState_objectIndex, getStateDelta_objectIndex]
  cases hb : b.objectIndex[id]? with
  | none =>
      have : ¬ id ∈ (summarizeState b).bundleIds := by
        rw [mem_bundleIds, mem_iff_getElem?]
        rintro ⟨r, hr⟩
        rw [hb] at hr
        cases hr
      rw [if_neg this]
  | some r => rfl

/-- Every entry of `d` stands at the same place in `b`; the owner is left open. -/
structure KeptFrom (b d : RepoState) : Prop where
  slot : ∀ (σ : Slot) (e : σ.Entry), d.at σ = some e → b.at σ = some e
  record : ∀ (id : ObjectBundleId) (r : ObjectBundleRecord), d.objectIndex[id]? = some r →
    b.objectIndex[id]? = some r

theorem keptFrom_getStateDelta (b : RepoState) (sum : RepoSummary) :
    KeptFrom b (getStateDelta b sum) where
  slot σ e he := by
    rw [getStateDelta_at, Option.filter_eq_some_iff] at he
    exact he.1
  record id r hr := by
    rw [getStateDelta_objectIndex] at hr
    split at hr
    · cases hr
    · exact hr

theorem DrawnFrom.kept {owner : PublicKey} {d : RepoState} (hb : DrawnFrom cr params owner b)
    (hd : KeptFrom b d) : DrawnFrom cr params owner d where
  slot σ e he := hb.slot σ e (hd.slot σ e he)
  record id r hr := hb.record id r (hd.record id r hr)

/-- A delta whose entries stand in an accepted state of the owner is never rejected. -/
theorem updateState_kept {d : RepoState} (ha : Accepted cr params a) (hb : Accepted cr params b)
    (ho : a.owner = b.owner) (hd : KeptFrom b d) :
    updateState cr params a d = .ok (mergeState a d) :=
  updateState_eq_ok.mpr ⟨rfl, ((DrawnFrom.of_accepted ha rfl).merge
    ((DrawnFrom.of_accepted hb ho.symm).kept hd)).accepted rfl ha.prefixOk⟩

theorem updateState_delta (ha : Accepted cr params a) (hb : Accepted cr params b)
    (ho : a.owner = b.owner) :
    updateState cr params b (getStateDelta a (summarizeState b)) = .ok (syncFrom a b) :=
  updateState_kept hb ha ho.symm (keptFrom_getStateDelta a (summarizeState b))

/-- **Honest updates are never rejected**: any part of an accepted state merges into
an accepted state of the same owner, the delta for any summary among them. -/
theorem updateState_honest (ha : validateState cr params a = .ok ())
    (hb : validateState cr params b = .ok ()) (ho : a.owner = b.owner) :
    (∀ d, KeptFrom b d → updateState cr params a d = .ok (mergeState a d) ∧
      (mergeState a d).owner = a.owner) ∧
    ∀ sum, KeptFrom b (getStateDelta b sum) ∧ (getStateDelta b sum).owner = zeros 32 := by
  rw [validateState_eq_ok] at ha hb
  refine ⟨fun d hd => ⟨updateState_kept ha hb ho hd, mergeState_owner a d⟩, fun sum => ?_⟩
  exact ⟨keptFrom_getStateDelta b sum, rfl⟩

/-- Applying the delta is merging the full state, exactly when `a` has no entry
that would win by its signature alone. -/
theorem syncFrom_eq_merge_iff :
    syncFrom a b = mergeState b a ↔ ∀ (σ : Slot) (ea eb : σ.Entry), a.at σ = some ea →
      b.at σ = some eb → σ.updateSeq ea = σ.updateSeq eb → σ.picker.pick eb ea = eb := by
  constructor
  · intro h σ
    exact (syncFrom_at_eq_iff σ).mp (by rw [h])
  · intro h
    exact RepoState.ext_at rfl (fun σ => (syncFrom_at_eq_iff σ).mpr (h σ))
      (syncFrom_objectIndex a b)

/-- Both sides apply the other's delta: each update succeeds and gives the merge
of the full states, and the two sides end in one state. -/
def DeltaSyncAgrees (cr : Crypto) (params : RepoParams) (a b : RepoState) : Prop :=
  updateState cr params b (getStateDelta a (summarizeState b)) = .ok (mergeState b a) ∧
  updateState cr params a (getStateDelta b (summarizeState a)) = .ok (mergeState a b) ∧
  mergeState a b = mergeState b a

/-- No conflict at equal numbers: where both states have an entry with the same
sequence number it is the same entry, and a bundle that both have is recorded
in the same way. -/
structure NoConflict (a b : RepoState) : Prop where
  slot : ∀ (σ : Slot) (ea eb : σ.Entry), a.at σ = some ea → b.at σ = some eb →
    σ.updateSeq ea = σ.updateSeq eb → ea = eb
  record : ∀ (id : ObjectBundleId) (ra rb : ObjectBundleRecord), a.objectIndex[id]? = some ra →
    b.objectIndex[id]? = some rb → ra = rb

theorem NoConflict.mergeState_comm (h : NoConflict a b) (ho : a.owner = b.owner) :
    mergeState a b = mergeState b a := by
  refine RepoState.ext_at ho (fun σ => ?_) ((mergeState_objectIndex_comm_iff_eq a b).mpr h.record)
  rw [mergeState_at, mergeState_at, Picker.pickOpt_comm_iff]
  intro ea eb hea heb hab hba
  exact h.slot σ ea eb hea heb (pickHigherSeq_draw hab hba).1

/-- **Delta synchronisation** agrees with merging full states exactly when there
is no conflict at equal sequence numbers. -/
theorem deltaSync_iff (ha : validateState cr params a = .ok ())
    (hb : validateState cr params b = .ok ()) (ho : a.owner = b.owner) :
    DeltaSyncAgrees cr params a b ↔ NoConflict a b := by
  rw [validateState_eq_ok] at ha hb
  unfold DeltaSyncAgrees
  rw [updateState_delta ha hb ho, updateState_delta hb ha ho.symm, Except.ok.injEq,
    Except.ok.injEq, syncFrom_eq_merge_iff, syncFrom_eq_merge_iff]
  constructor
  · rintro ⟨hba, hab, hcomm⟩
    refine ⟨fun σ ea eb hea heb heq => ?_, fun id => ?_⟩
    · -- each side keeps its own entry, and the merges agree
      have hcomm := congrArg (fun s => RepoState.at s σ) hcomm
      simp only [mergeState_at, hea, heb, Picker.pickOpt_some_some, Option.some.injEq] at hcomm
      rwa [hab σ eb ea heb hea heq.symm, hba σ ea eb hea heb heq] at hcomm
    · exact (mergeState_objectIndex_comm_iff_eq a b).mp (by rw [hcomm]) id
  · intro h
    refine ⟨fun σ ea eb hea heb heq => ?_, fun σ eb ea heb hea heq => ?_, h.mergeState_comm ho⟩
    · rw [h.slot σ ea eb hea heb heq, Picker.pick_self]
    · rw [h.slot σ ea eb hea heb heq.symm, Picker.pick_self]

end

/-! The two racing pushes again: neither delta carries the other's entry. -/

theorem updateState_honest_race :
    (∀ d, KeptFrom Sample.raceB d → updateState Sample.raceCrypto Sample.params Sample.raceA d =
        .ok (mergeState Sample.raceA d) ∧ (mergeState Sample.raceA d).owner = Sample.raceA.owner) ∧
    ∀ sum, KeptFrom Sample.raceB (getStateDelta Sample.raceB sum) ∧
      (getStateDelta Sample.raceB sum).owner = zeros 32 :=
  updateState_honest (Sample.race_accepted _ (.inl rfl)).1 (Sample.race_accepted _ (.inr rfl)).1 rfl

theorem deltaSync_iff_race :
    DeltaSyncAgrees Sample.raceCrypto Sample.params Sample.raceA Sample.raceB ↔
      NoConflict Sample.raceA Sample.raceB :=
  deltaSync_iff (Sample.race_accepted _ (.inl rfl)).1 (Sample.race_accepted _ (.inr rfl)).1 rfl

theorem deltaSync_split :
    validateState Sample.raceCrypto Sample.params Sample.raceA = .ok () ∧
    validateState Sample.raceCrypto Sample.params Sample.raceB = .ok () ∧
    Sample.raceA.owner = Sample.raceB.owner ∧
    updateState Sample.raceCrypto Sample.params Sample.raceB
      (getStateDelta Sample.raceA (summarizeState Sample.raceB)) = .ok Sample.raceB ∧
    updateState Sample.raceCrypto Sample.params Sample.raceA
      (getStateDelta Sample.raceB (summarizeState Sample.raceA)) = .ok Sample.raceA ∧
    Sample.raceA ≠ Sample.raceB ∧
    mergeState Sample.raceB Sample.raceA ≠ Sample.raceB := by
  have hA := Sample.race_accepted _ (.inl rfl)
  have hB := Sample.race_accepted _ (.inr rfl)
  have hsync : syncFrom Sample.raceA Sample.raceB = Sample.raceB := by decide
  have hsync' : syncFrom Sample.raceB Sample.raceA = Sample.raceA := by decide
  refine ⟨hA.1, hB.1, rfl, ?_, ?_, by decide, by decide +kernel⟩
  · rw [updateState_delta (validateState_eq_ok.mp hA.1) (validateState_eq_ok.mp hB.1) rfl, hsync]
  · rw [updateState_delta (validateState_eq_ok.mp hB.1) (validateState_eq_ok.mp hA.1) rfl, hsync']

end FreenetGit
