/-
# `FreenetGit.Wire` — states in bytes

A state has an encoding when its lengths fit 64 bits (`fits_repoState`), which is
so for every value in memory and for everything that was decoded.  What is encoded
is decoded again (`codec_roundTrip`); so it makes no difference whether the contract
is given its updates one by one or all at once (`updateState_batch`).
-/
import FreenetGit.Contract
import FreenetGit.Push
import FreenetGit.Sample

namespace FreenetGit

open Lib

/-! ## Sizes -/

/-- The lengths in an entry fit 64 bits. -/
def Slot.Sized : (σ : Slot) → σ.Entry → Prop
  | .name, e | .description, e | .defaultBranch, e => (utf8 (SignedField.value e)).length < 2 ^ 64
  | .forcePushAllowed, e =>
      (SignedField.value e).length < 2 ^ 64 ∧ ∀ r ∈ SignedField.value e, (utf8 r).length < 2 ^ 64
  | .acl, e => (SignedField.value e).grants.size < 2 ^ 64
  | .upgrade, _ => True
  | .ref n, _ => (utf8 n).length < 2 ^ 64
  | .extension k, e => (utf8 k).length < 2 ^ 64 ∧ (ExtensionEntry.value e).length < 2 ^ 64

instance : (σ : Slot) → (e : σ.Entry) → Decidable (σ.Sized e)
  | .name, _ | .description, _ | .defaultBranch, _ | .acl, _ | .ref _, _ => Nat.decLt _ _
  | .forcePushAllowed, _ | .extension _, _ => instDecidableAnd
  | .upgrade, _ => .isTrue trivial

/-- The lengths in a state fit 64 bits. -/
structure RepoState.Sized (s : RepoState) : Prop where
  slot : ∀ (σ : Slot) (e : σ.Entry), s.at σ = some e → σ.Sized e
  refs : s.refs.size < 2 ^ 64
  objectIndex : s.objectIndex.size < 2 ^ 64
  extensions : s.extensions.size < 2 ^ 64

namespace bincode

theorem fits_signature (v : Signature) : (Codec.arrayBlob 64).Fits v :=
  Codec.fits_arrayBlob (by decide) v

theorem fits_signedField {T : Type} {A : Codec T} {f : SignedField T} :
    (signedField A).Fits f ↔ A.Fits f.value := by
  simp only [signedField, Codec.fits_imap, Codec.fits_pair, Codec.fits_u64, fits_signature,
    and_true]

theorem fits_writerGrant (g : WriterGrant) : writerGrant.Fits g := by
  simp only [writerGrant, Codec.fits_imap, Codec.fits_pair, Codec.fits_u64, true_and,
    Codec.fits_option]
  exact fun a _ => trivial

theorem fits_aclState {a : AclState} : aclState.Fits a ↔ a.grants.size < 2 ^ 64 := by
  simp only [aclState, Codec.fits_imap, Codec.fits_pair, Codec.fits_u64, Codec.fits_map,
    Codec.fits_array, fits_writerGrant, true_and, and_true, implies_true]

theorem fits_refEntry (e : RefEntry) : refEntry.Fits e := by
  simp only [refEntry, Codec.fits_imap, Codec.fits_pair, Codec.fits_u64, Codec.fits_array,
    fits_signature, and_true]

theorem fits_objectBundle (b : ObjectBundle) : objectBundle.Fits b := by
  cases b <;> simp [objectBundle]

theorem fits_objectBundleRecord (r : ObjectBundleRecord) : objectBundleRecord.Fits r := by
  simp only [objectBundleRecord, Codec.fits_imap, Codec.fits_pair, Codec.fits_u64, Codec.fits_array,
    fits_objectBundle, fits_signature, and_true]

theorem fits_extensionEntry {e : ExtensionEntry} :
    extensionEntry.Fits e ↔ e.value.length < 2 ^ 64 := by
  simp only [extensionEntry, Codec.fits_imap, Codec.fits_pair, Codec.fits_u64, Codec.fits_blob,
    fits_signature, and_true]

theorem fits_repoParams {p : RepoParams} : repoParams.Fits p ↔ (utf8 p.prefixStr).length < 2 ^ 64 :=
  Codec.fits_string

/-- **A state has an encoding** exactly when its lengths fit. -/
theorem fits_repoState {s : RepoState} : repoState.Fits s ↔ s.Sized := by
  simp only [repoState, Codec.fits_imap, Codec.fits_pair, Codec.fits_option, Codec.fits_map,
    fits_signedField, Codec.fits_string, Codec.fits_list, fits_aclState, Codec.fits_array,
    fits_refEntry, fits_objectBundleRecord, fits_extensionEntry, true_and, and_true, implies_true]
  constructor
  · rintro ⟨hn, hd, hb, hf, ha, ⟨hrs, hr⟩, hos, hes, he⟩
    refine ⟨?_, hrs, hos, hes⟩
    rintro (_ | _ | _ | _ | _ | _ | n | k) e h
    · exact hn e h
    · exact hd e h
    · exact hb e h
    · exact hf e h
    · exact ha e h
    · trivial
    · exact hr n e h
    · exact he k e h
  · rintro ⟨h, hrs, hos, hes⟩
    exact ⟨h .name, h .description, h .defaultBranch, h .forcePushAllowed, h .acl,
      ⟨hrs, fun n => h (.ref n)⟩, hos, hes, fun k => h (.extension k)⟩

/-! ### What was decoded fits -/

theorem readsFit_signedField {T : Type} {A : Codec T} (hA : A.ReadsFit) :
    (signedField A).ReadsFit :=
  Codec.readsFit_imap (Codec.readsFit_pair hA (Codec.readsFit_pair
    (Codec.readsFit_of_fits Codec.fits_u64) (Codec.readsFit_of_fits fits_signature)))
    fun a b ha hb => by
      cases hb
      exact ha

theorem readsFit_aclState : aclState.ReadsFit :=
  Codec.readsFit_imap (Codec.readsFit_pair (Codec.readsFit_of_fits Codec.fits_u64)
    (Codec.readsFit_map (Codec.readsFit_of_fits Codec.fits_array)
      (Codec.readsFit_of_fits fits_writerGrant)))
    fun a b ha hb => by
      cases hb
      exact ha

theorem readsFit_extensionEntry : extensionEntry.ReadsFit :=
  Codec.readsFit_imap (Codec.readsFit_pair Codec.readsFit_blob (Codec.readsFit_pair
    (Codec.readsFit_of_fits Codec.fits_u64) (Codec.readsFit_of_fits fits_signature)))
    fun a b ha hb => by
      cases hb
      exact ha

theorem readsFit_repoState : repoState.ReadsFit := by
  have hfield : (Codec.option (signedField .string)).ReadsFit :=
    Codec.readsFit_option (readsFit_signedField Codec.readsFit_string)
  have hlist : (Codec.option (signedField (.list .string))).ReadsFit :=
    Codec.readsFit_option (readsFit_signedField (Codec.readsFit_list Codec.readsFit_string))
  have hacl : (Codec.option (signedField aclState)).ReadsFit :=
    Codec.readsFit_option (readsFit_signedField readsFit_aclState)
  have hupgrade : (Codec.option (signedField (.option (.array 32)))).ReadsFit :=
    Codec.readsFit_option (readsFit_signedField (Codec.readsFit_option
      (Codec.readsFit_of_fits Codec.fits_array)))
  have hrefs : (Codec.map .string refEntry).ReadsFit :=
    Codec.readsFit_map Codec.readsFit_string (Codec.readsFit_of_fits fits_refEntry)
  have hindex : (Codec.map (.array 32) objectBundleRecord).ReadsFit :=
    Codec.readsFit_map (Codec.readsFit_of_fits Codec.fits_array)
      (Codec.readsFit_of_fits fits_objectBundleRecord)
  have hext : (Codec.map .string extensionEntry).ReadsFit :=
    Codec.readsFit_map Codec.readsFit_string readsFit_extensionEntry
  refine Codec.readsFit_imap (Codec.readsFit_pair (Codec.readsFit_of_fits Codec.fits_array)
    (Codec.readsFit_pair hfield (Codec.readsFit_pair hfield (Codec.readsFit_pair hfield
      (Codec.readsFit_pair hlist (Codec.readsFit_pair hacl (Codec.readsFit_pair hupgrade
        (Codec.readsFit_pair hrefs (Codec.readsFit_pair hindex hext))))))))) ?_
  intro a b ha hb
  cases hb
  exact ha

end bincode

section

variable {cr : Crypto} {s t : RepoState} {p q : RepoParams} {bs : Bytes}

theorem RepoState.sized_default : RepoState.default.Sized where
  slot σ e h := by
    rw [default_at] at h
    cases h
  refs := by decide
  objectIndex := by decide
  extensions := by decide

/-- What was decoded has lengths that fit. -/
theorem RepoState.sized_of_fromBytes (h : RepoState.fromBytes cr bs = .ok s) : s.Sized := by
  unfold RepoState.fromBytes at h
  split at h
  · cases h
    exact sized_default
  · split at h
    · cases h
    · next hread =>
        cases h
        obtain ⟨⟨a, rest⟩, hdec, rfl⟩ := Option.map_eq_some_iff.mp hread
        exact bincode.fits_repoState.mp (bincode.readsFit_repoState _ _ _ hdec)

/-! ## Round trips -/

/-- An encoding has one state. -/
theorem RepoState.toBytes_inj (hs : s.toBytes = some bs) (ht : t.toBytes = some bs) : s = t := by
  have hs' := bincode.repoState.read_enc hs
  rw [bincode.repoState.read_enc ht] at hs'
  exact (Option.some.inj hs').symm

theorem RepoParams.toBytes_inj (hp : p.toBytes = some bs) (hq : q.toBytes = some bs) : p = q := by
  have hp' := bincode.repoParams.read_enc hp
  rw [bincode.repoParams.read_enc hq] at hp'
  exact (Option.some.inj hp').symm

theorem RepoParams.fromBytes_toBytes (h : p.toBytes = some bs) : RepoParams.fromBytes cr bs = .ok p := by
  rw [fromBytes, bincode.repoParams.read_enc h]

/-- The encoding of the parameters starts with the length of the prefix. -/
theorem RepoParams.toBytes_ne_nil (h : p.toBytes = some bs) : bs ≠ [] := by
  have hfits : (utf8 p.prefixStr).length < 2 ^ 64 := bincode.fits_repoParams.mp ⟨bs, h⟩
  have h : (if h : (utf8 p.prefixStr).length < 2 ^ 64 then
    (Codec.len.enc ⟨_, h⟩).map (· ++ utf8 p.prefixStr) else none) = some bs := h
  rw [dif_pos hfits] at h
  obtain ⟨x, hx, rfl⟩ := Option.map_eq_some_iff.mp h
  have hx : leBytes 8 (utf8 p.prefixStr).length = x := Option.some.inj hx
  intro hnil
  have hlen := congrArg List.length (List.append_eq_nil_iff.mp hnil).1
  rw [← hx, length_leBytes] at hlen
  cases hlen

/-- The bytes `handle_push` sends, if there is something to send. -/
def pushedBytes (cr : Crypto) (params : RepoParams) (key : SigningKey) (host : PushHost)
    (env : PushEnv) (state : RepoState) (pushes : List String) :
    Outcome String (Option Bytes × PushAcc) := do
  let (sent, acc) ← handlePush cr params key host env state pushes
  match sent with
  | none => .ok (none, acc)
  | some delta =>
      match bincode.repoState.enc delta with
      | none => .error (.err (cr.bincodeError []))
      | some bytes => .ok (some bytes, acc)

/-- What a push sends is its delta. -/
theorem pushedBytes_eq_ok {params : RepoParams} {key : SigningKey} {host : PushHost} {env : PushEnv}
    {pushes : List String} {acc : PushAcc}
    (h : pushedBytes cr params key host env s pushes = .ok (some bs, acc)) :
    handlePush cr params key host env s pushes = .ok (some acc.delta, acc) ∧
      acc.delta.toBytes = some bs := by
  obtain ⟨⟨sent, acc'⟩, hpush, h⟩ := bind_eq_ok.mp h
  obtain ⟨-, hsent⟩ := handlePush_eq_ok hpush
  dsimp only at h
  split at h
  · cases h
  · next delta =>
      split at h
      · cases h
      · next bytes hbytes =>
          cases h
          rw [← (hsent delta rfl).1]
          exact ⟨hpush, hbytes⟩

/-- **The codecs round-trip**: every state and all parameters in memory have bytes, not
empty, that are theirs alone and are decoded to them; and the contract decodes what a
push sends to exactly the delta of the push. -/
theorem codec_roundTrip (cr : Crypto) :
    (∀ s : RepoState, s.Sized →
      ∃ bs, s.toBytes = some bs ∧ bs ≠ [] ∧ RepoState.fromBytes cr bs = .ok s) ∧
    (∀ (s t : RepoState) (bs : Bytes), s.toBytes = some bs → t.toBytes = some bs → s = t) ∧
    (∀ p : RepoParams, (utf8 p.prefixStr).length < 2 ^ 64 →
      ∃ bs, p.toBytes = some bs ∧ bs ≠ [] ∧ RepoParams.fromBytes cr bs = .ok p) ∧
    (∀ (p q : RepoParams) (bs : Bytes), p.toBytes = some bs → q.toBytes = some bs → p = q) ∧
    ∀ (params : RepoParams) (key : SigningKey) (host : PushHost) (env : PushEnv) (s : RepoState)
      (pushes : List String) (bs : Bytes) (acc : PushAcc),
      pushedBytes cr params key host env s pushes = .ok (some bs, acc) →
        contract.decodeState cr bs = .ok acc.delta := by
  refine ⟨fun s hs => ?_, fun s t bs => RepoState.toBytes_inj, fun p hp => ?_,
    fun p q bs => RepoParams.toBytes_inj, fun params key host env s pushes bs acc h => ?_⟩
  · obtain ⟨bs, hbs⟩ := bincode.fits_repoState.mpr hs
    exact ⟨bs, hbs, RepoState.toBytes_ne_nil hbs, RepoState.fromBytes_toBytes hbs⟩
  · obtain ⟨bs, hbs⟩ := bincode.fits_repoParams.mpr hp
    exact ⟨bs, hbs, RepoParams.toBytes_ne_nil hbs, RepoParams.fromBytes_toBytes hbs⟩
  · obtain ⟨-, hbs⟩ := pushedBytes_eq_ok h
    exact contract.decodeState_eq_ok.mpr (RepoState.fromBytes_toBytes hbs)

namespace Sample

/-- A state with every kind of entry, a revoked writer and both kinds of bundle. -/
def full : RepoState where
  owner := owner
  name := some ⟨"repo", 1, sig 1⟩
  description := some ⟨"", 2, sig 2⟩
  defaultBranch := some ⟨"refs/heads/main", 1, sig 3⟩
  forcePushAllowed := some ⟨["refs/heads/main", "refs/heads/dev"], 3, sig 4⟩
  acl := some ⟨⟨2, (∅ : BTreeMap PublicKey WriterGrant).insert (zeros 32) ⟨1, some 2⟩⟩, 2, sig 5⟩
  upgrade := some ⟨some (zeros 32), 1, sig 6⟩
  refs := (∅ : BTreeMap RefName RefEntry).insert "refs/heads/main" ⟨zeros 20, 4, owner, 0, sig 7⟩
  objectIndex := ((∅ : BTreeMap ObjectBundleId ObjectBundleRecord).insert (zeros 32)
    ⟨.singlePack (zeros 32) 5, owner, 0, sig 8⟩).insert ((zeros 32).set 0 1)
    ⟨.chunkedPack (zeros 32) 7 2, owner, 0, sig 9⟩
  extensions := (∅ : BTreeMap String ExtensionEntry).insert "mirror-mode" ⟨[1, 2, 3], 1, sig 10⟩

theorem sized_full : full.Sized where
  slot σ e h := by
    cases σ with
    | name | description | defaultBranch | forcePushAllowed | acl | upgrade =>
        cases h
        decide
    | ref n =>
        obtain ⟨rfl, rfl⟩ := single_eq h
        decide
    | extension k =>
        obtain ⟨rfl, rfl⟩ := single_eq h
        decide
  refs := by decide
  objectIndex := by decide +kernel
  extensions := by decide

end Sample

/-- The state with every kind of entry, and parameters. -/
theorem codec_roundTrip_full :
    (∃ bs, Sample.full.toBytes = some bs ∧ bs ≠ [] ∧
      RepoState.fromBytes Sample.unsigned bs = .ok Sample.full) ∧
    ∃ bs, Sample.params.toBytes = some bs ∧ bs ≠ [] ∧
      RepoParams.fromBytes Sample.unsigned bs = .ok Sample.params := by
  obtain ⟨hstate, -, hparams, -⟩ := codec_roundTrip Sample.unsigned
  exact ⟨hstate Sample.full Sample.sized_full, hparams Sample.params (by decide)⟩

/-! ## Batches

Between two calls the state is encoded and decoded; in one call it is not.  A state
between two updates may be too large to encode only if the last one is, because
maps only grow. -/

/-- The entries of a state have lengths that fit. -/
def EntriesSized (s : RepoState) : Prop := ∀ (σ : Slot) (e : σ.Entry), s.at σ = some e → σ.Sized e

theorem EntriesSized.merge (hs : EntriesSized s) (ht : EntriesSized t) :
    EntriesSized (mergeState s t) := by
  intro σ e he
  rw [mergeState_at] at he
  exact (σ.picker.pickOpt_eq_some he).elim (hs σ e) (ht σ e)

/-- A state that a larger one preserves has an encoding if the larger one has. -/
theorem RepoState.Sized.of_preserves (h : t.Sized) (hp : Preserves s t) (hs : EntriesSized s) :
    s.Sized where
  slot := hs
  refs := by
    refine (size_le_of_forall fun n e he => ?_).trans_lt h.refs
    obtain ⟨e', he', -⟩ := hp.slot (.ref n) e he
    exact ⟨e', he'⟩
  objectIndex := (size_le_of_forall fun id r hr => ⟨r, hp.record id r hr⟩).trans_lt h.objectIndex
  extensions := by
    refine (size_le_of_forall fun k e he => ?_).trans_lt h.extensions
    obtain ⟨e', he', -⟩ := hp.slot (.extension k) e he
    exact ⟨e', he'⟩

variable {params : RepoParams} {pb sb sb' : Bytes} {u : UpdateData} {data : List UpdateData}

theorem contract.update_entriesSized {label : String} {d : RepoState}
    (h : contract.update cr label params s d = .ok t) (hs : EntriesSized s) (hd : EntriesSized d) :
    EntriesSized t := by
  rw [(FreenetGit.updateState_eq_ok.mp (contract.update_eq_ok.mp h)).1]
  exact hs.merge hd

theorem contract.applyItem_entriesSized (h : contract.applyItem cr params s u = .ok t)
    (hs : EntriesSized s) : EntriesSized t := by
  have hdecode : ∀ {bytes : Bytes} {d : RepoState}, contract.decodeState cr bytes = .ok d →
      EntriesSized d := fun hd =>
    (RepoState.sized_of_fromBytes (contract.decodeState_eq_ok.mp hd)).slot
  cases u with
  | state bytes =>
      obtain ⟨d, hd, h⟩ := bind_eq_ok.mp h
      exact contract.update_entriesSized h hs (hdecode hd)
  | delta bytes =>
      simp only [contract.applyItem] at h
      split at h
      · cases h
        exact hs
      · obtain ⟨d, hd, h⟩ := bind_eq_ok.mp h
        exact contract.update_entriesSized h hs (hdecode hd)
  | stateAndDelta state delta =>
      obtain ⟨d, hd, h⟩ := bind_eq_ok.mp h
      obtain ⟨t₁, ht₁, h⟩ := bind_eq_ok.mp h
      have hs₁ := contract.update_entriesSized ht₁ hs (hdecode hd)
      split at h
      · cases h
        exact hs₁
      · obtain ⟨d', hd', h⟩ := bind_eq_ok.mp h
        exact contract.update_entriesSized h hs₁ (hdecode hd')
  | relatedState | relatedDelta | relatedStateAndDelta | unknown => cases h

theorem contract.encodeState_eq_ok : contract.encodeState cr s = .ok bs ↔ s.toBytes = some bs := by
  unfold contract.encodeState
  cases s.toBytes with
  | none => exact ⟨nofun, nofun⟩
  | some x => simp only [Except.ok.injEq, Option.some.injEq]

/-- A call, from the decoded parameters and state. -/
theorem contract.updateState_eq_ok (hp : contract.decodeParams cr pb = .ok params)
    (hs : contract.decodeState cr sb = .ok s) :
    contract.updateState cr pb sb data = .ok sb' ↔
      ∃ t, data.foldlM (contract.applyItem cr params) s = .ok t ∧ t.toBytes = some sb' := by
  rw [contract.updateState, hp, hs]
  change (data.foldlM (contract.applyItem cr params) s >>= contract.encodeState cr) = .ok sb' ↔ _
  rw [bind_eq_ok]
  simp only [contract.encodeState_eq_ok]

/-- One call for each update, each on the bytes of the one before. -/
def contract.updateStates (cr : Crypto) (pb : Bytes) (sb : Bytes) (data : List UpdateData) :
    Outcome ContractError Bytes :=
  data.foldlM (fun sb u => contract.updateState cr pb sb [u]) sb

/-- From the second update on, the bytes are those of a state. -/
theorem contract.updateStates_eq_ok (hp : contract.decodeParams cr pb = .ok params) :
    ∀ {data : List UpdateData} {u : UpdateData} {sb : Bytes} {s : RepoState},
      contract.decodeState cr sb = .ok s →
      (contract.updateStates cr pb sb (u :: data) = .ok sb' ↔
        ∃ t, (u :: data).foldlM (contract.applyItem cr params) s = .ok t ∧ t.toBytes = some sb')
  | [], u, sb, s, hs => by
      rw [← contract.updateState_eq_ok hp hs, contract.updateStates, List.foldlM_cons, bind_eq_ok]
      simp only [List.foldlM_nil]
      constructor
      · rintro ⟨x, hx, h⟩
        cases h
        exact hx
      · exact fun h => ⟨sb', h, rfl⟩
  | v :: data, u, sb, s, hs => by
      have hsized := (RepoState.sized_of_fromBytes (contract.decodeState_eq_ok.mp hs)).slot
      have hone : ∀ {x : Bytes} {t : RepoState}, contract.applyItem cr params s u = .ok t →
          t.toBytes = some x → contract.updateState cr pb sb [u] = .ok x := fun ht hx =>
        (contract.updateState_eq_ok hp hs).mpr ⟨_, bind_eq_ok.mpr ⟨_, ht, rfl⟩, hx⟩
      rw [contract.updateStates, List.foldlM_cons, List.foldlM_cons, bind_eq_ok]
      constructor
      · rintro ⟨x, hx, h⟩
        obtain ⟨t, ht, hbytes⟩ := (contract.updateState_eq_ok hp hs).mp hx
        obtain ⟨t', ht', heq⟩ := bind_eq_ok.mp ht
        cases heq
        obtain ⟨t', ht'', hfinal⟩ := (contract.updateStates_eq_ok hp (contract.decodeState_eq_ok.mpr
          (RepoState.fromBytes_toBytes hbytes))).mp h
        exact ⟨t', bind_eq_ok.mpr ⟨t, ht', ht''⟩, hfinal⟩
      · rintro ⟨t', h, hfinal⟩
        obtain ⟨t, ht, h⟩ := bind_eq_ok.mp h
        -- the state in between fits, because the last one does
        have hpres : Preserves t t' := (contract.items_updates h).preserves
        obtain ⟨x, hx⟩ := bincode.fits_repoState.mpr ((bincode.fits_repoState.mp ⟨sb', hfinal⟩).of_preserves
          hpres (contract.applyItem_entriesSized ht hsized))
        refine ⟨x, hone ht hx, ?_⟩
        exact (contract.updateStates_eq_ok hp (contract.decodeState_eq_ok.mpr
          (RepoState.fromBytes_toBytes hx))).mpr ⟨t', h, hfinal⟩

/-- **Batching is transparent**: one call with several updates succeeds with the bytes
that one call for each of them ends with, and if one of these fails, so does it. -/
theorem updateState_batch (cr : Crypto) (pb sb : Bytes) (u : UpdateData) (data : List UpdateData) :
    (∀ sb', contract.updateState cr pb sb (u :: data) = .ok sb' ↔
      contract.updateStates cr pb sb (u :: data) = .ok sb') ∧
    ∀ e, contract.updateStates cr pb sb (u :: data) = .error e →
      ∃ e', contract.updateState cr pb sb (u :: data) = .error e' := by
  have hiff : ∀ sb', contract.updateState cr pb sb (u :: data) = .ok sb' ↔
      contract.updateStates cr pb sb (u :: data) = .ok sb' := by
    intro sb'
    cases hp : contract.decodeParams cr pb with
    | error e =>
        rw [contract.updateStates, List.foldlM_cons, contract.updateState, contract.updateState, hp]
        exact Iff.rfl
    | ok params =>
        cases hs : contract.decodeState cr sb with
        | error e =>
            rw [contract.updateStates, List.foldlM_cons, contract.updateState, contract.updateState,
              hp, hs]
            exact Iff.rfl
        | ok s => rw [contract.updateState_eq_ok hp hs, contract.updateStates_eq_ok hp hs]
  refine ⟨hiff, fun e he => ?_⟩
  cases h : contract.updateState cr pb sb (u :: data) with
  | error e' => exact ⟨e', rfl⟩
  | ok sb' =>
      rw [(hiff sb').mp h] at he
      cases he

end

end FreenetGit
