/-
# `FreenetGit.Signer` — what the owner signs is accepted

`validate_state` computes the domain key and the payloads again, from the state and
the parameters.  A state whose entries the `sign_*` helpers made, under the names
and keys they stand at, is accepted (`validateState_signed`); base58 is long enough
for every prefix that the parameters may have.
-/
import FreenetGit.Lib.Base58
import FreenetGit.Sample
import FreenetGit.Signing

namespace FreenetGit

open Lib

/-! ## Made by the signer -/

/-- The entries of the state are those the signing helpers made for their places. -/
structure MadeBySigner (cr : Crypto) (params : RepoParams) (key : SigningKey) (s : RepoState) :
    Prop where
  owner : s.owner = key.verifyingKey
  name : ∀ f, s.name = some f → ∃ value updateSeq,
    (utf8 value).length ≤ limits.maxNameBytes ∧
      signStringField cr params key "name" value updateSeq = some f
  description : ∀ f, s.description = some f → ∃ value updateSeq,
    (utf8 value).length ≤ limits.maxDescriptionBytes ∧
      signStringField cr params key "description" value updateSeq = some f
  defaultBranch : ∀ f, s.defaultBranch = some f → ∃ value updateSeq,
    (utf8 value).length ≤ limits.maxRefNameBytes ∧
      signStringField cr params key "default_branch" value updateSeq = some f
  forcePushAllowed : ∀ f, s.forcePushAllowed = some f → ∃ value updateSeq,
    signRefListField cr params key "force_push_allowed" value updateSeq = some f
  acl : ∀ f, s.acl = some f → ∃ value updateSeq,
    signAclField cr params key "acl" value updateSeq = some f
  upgrade : ∀ f, s.upgrade = some f → ∃ value updateSeq,
    signOptionalRepoKeyField cr params key "upgrade" value updateSeq = some f
  ref : ∀ (n : RefName) (e : RefEntry), s.refs[n]? = some e →
    (utf8 n).length ≤ limits.maxRefNameBytes ∧ ∃ target updateSeq authEpoch,
      signRefEntry cr params key n target updateSeq authEpoch = some e
  record : ∀ (id : ObjectBundleId) (r : ObjectBundleRecord), s.objectIndex[id]? = some r →
    ∃ bundle authEpoch, bundle.id cr = id ∧ signBundleRecord cr params key bundle authEpoch = some r
  extension : ∀ (k : String) (e : ExtensionEntry), s.extensions[k]? = some e →
    (∃ value updateSeq, (utf8 k).length ≤ limits.maxExtensionKeyBytes ∧
      value.length ≤ limits.maxExtensionValueBytes ∧
      signExtension cr params key k value updateSeq = some e) ∨
    ∃ bundleId tip updateSeq, signBundleTipExtension cr params key bundleId tip updateSeq = some (k, e)

section

variable {cr : Crypto} {params : RepoParams} {key : SigningKey} {s : RepoState}

/-! ## Signatures -/

/-- A signature over a payload that was built is one on the statement. -/
theorem signed_of_signWith (st : Statement) {sig : Signature}
    (hkey : ∀ p, cr.verify key.verifyingKey p (key.sign p) = true)
    (h : signWith cr params key (fun k => st.payload cr k) = some sig) :
    Signed cr params key.verifyingKey st sig := by
  obtain ⟨p, hp, rfl⟩ := Option.map_eq_some_iff.mp h
  exact ⟨p, hp, hkey p⟩

/-- The helpers answer for what is within the limits. -/
theorem exists_signWith (cr : Crypto) (params : RepoParams) (key : SigningKey) {st : Statement}
    (h : st.WithinLimits) :
    ∃ sig, signWith cr params key (fun k => st.payload cr k) = some sig := by
  obtain ⟨p, hp⟩ := h.exists_payload cr (signatureDomainKey cr params key.verifyingKey)
  exact ⟨key.sign p, by rw [signWith, hp]; rfl⟩

/-! ## The prefix -/

/-- What is relied on of `bs58`: the standard encoding, and a decoder that knows the
alphabet. -/
structure StandardBase58 (cr : Crypto) : Prop where
  encode : ∀ k : PublicKey, cr.bs58Encode k = base58 k.toList
  decodes : ∀ s : String, (∀ c ∈ s.toList, c ∈ base58Alphabet) → cr.bs58Decodes s = true

/-- **The prefix of a key** fits the key, at every length the parameters may have. -/
theorem prefixOk_fromOwner {owner : PublicKey} {n : ℕ} (hbs : StandardBase58 cr)
    (hn : limits.minPrefixLen ≤ n) (hn' : n ≤ limits.maxPrefixLen) :
    PrefixOk cr (RepoParams.fromOwner cr owner n) owner := by
  have hlong : n ≤ (base58Chars owner.toList).length := by
    have h := length_le_base58Chars owner.toList
    rw [Vector.length_toList] at h
    exact hn'.trans h
  have heq : (RepoParams.fromOwner cr owner n).prefixStr =
      String.ofList ((base58Chars owner.toList).take n) := by
    simp only [RepoParams.fromOwner, pubkeyPrefix, hbs.encode, base58, String.length_ofList,
      String.toList_ofList, Nat.min_eq_left hlong]
  have hmem : ∀ c ∈ (base58Chars owner.toList).take n, c ∈ base58Alphabet :=
    fun c hc => mem_base58Chars (List.mem_of_mem_take hc)
  have hlen : (utf8 (RepoParams.fromOwner cr owner n).prefixStr).length = n := by
    rw [heq, length_utf8_ofList_of_ascii fun c hc => base58Alphabet_ascii c (hmem c hc),
      List.length_take, Nat.min_eq_left hlong]
  refine ⟨hn.trans_eq hlen.symm, hlen.trans_le hn', ?_, ?_⟩
  · refine hbs.decodes _ ?_
    rw [heq, String.toList_ofList]
    exact hmem
  · rw [hlen]
    rfl

/-! ## Acceptance -/

variable (hkey : ∀ p, cr.verify key.verifyingKey p (key.sign p) = true)

include hkey

/-- A field that the signer made, of any kind `mk`: its value, and its signature. -/
theorem signedField_of_sign {T : Type} {v : T} {seq : UInt64} {f : SignedField T}
    (mk : T → UInt64 → Statement)
    (h : (signWith cr params key fun k => (mk v seq).payload cr k).map (fun sig => ⟨v, seq, sig⟩) =
      some f) :
    f.value = v ∧ Signed cr params key.verifyingKey (mk f.value f.updateSeq) f.signature := by
  obtain ⟨sig, hsig, rfl⟩ := Option.map_eq_some_iff.mp h
  exact ⟨rfl, signed_of_signWith _ hkey hsig⟩

theorem refEntry_of_sign {n : RefName} {t : CommitHash} {seq ep : UInt64} {e : RefEntry}
    (h : signRefEntry cr params key n t seq ep = some e) :
    e.updater = key.verifyingKey ∧
      Signed cr params key.verifyingKey (.ref n e.target e.updateSeq e.authEpoch) e.signature := by
  obtain ⟨sig, hsig, rfl⟩ := Option.map_eq_some_iff.mp h
  exact ⟨rfl, signed_of_signWith (.ref n t seq ep) hkey hsig⟩

theorem bundleRecord_of_sign {b : ObjectBundle} {ep : UInt64} {r : ObjectBundleRecord}
    (h : signBundleRecord cr params key b ep = some r) :
    r.bundle = b ∧ r.addedBy = key.verifyingKey ∧
      Signed cr params key.verifyingKey (.bundle r.bundle r.authEpoch) r.signature := by
  obtain ⟨sig, hsig, rfl⟩ := Option.map_eq_some_iff.mp h
  exact ⟨rfl, rfl, signed_of_signWith (.bundle b ep) hkey hsig⟩

theorem extension_of_sign {k : String} {v : Bytes} {seq : UInt64} {e : ExtensionEntry}
    (h : signExtension cr params key k v seq = some e) :
    e.value = v ∧
      Signed cr params key.verifyingKey (.extension k e.value e.updateSeq) e.signature := by
  obtain ⟨sig, hsig, rfl⟩ := Option.map_eq_some_iff.mp h
  exact ⟨rfl, signed_of_signWith (.extension k v seq) hkey hsig⟩

/-- An extension that the signer made, a tip or any other, is within the limits. -/
theorem MadeBySigner.extensionOk (h : MadeBySigner cr params key s) {k : String}
    {e : ExtensionEntry} (he : s.extensions[k]? = some e) :
    ((utf8 k).length ≤ limits.maxExtensionKeyBytes ∧
        e.value.length ≤ limits.maxExtensionValueBytes) ∧
      Signed cr params key.verifyingKey (.extension k e.value e.updateSeq) e.signature := by
  rcases h.extension k e he with ⟨v, seq, hk, hv, hs⟩ | ⟨id, tip, seq, hs⟩
  · obtain ⟨hvalue, hsigned⟩ := extension_of_sign hkey hs
    exact ⟨⟨hk, hvalue ▸ hv⟩, hsigned⟩
  · obtain ⟨e', hs, heq⟩ := Option.map_eq_some_iff.mp hs
    cases heq
    obtain ⟨hvalue, hsigned⟩ := extension_of_sign hkey hs
    refine ⟨⟨length_bundleTipExtensionKey id, ?_⟩, hsigned⟩
    rw [hvalue]
    exact Vector.length_toList.trans_le (by decide)

/-- What the signer made is accepted. -/
theorem MadeBySigner.accepted (h : MadeBySigner cr params key s)
    (hp : PrefixOk cr params key.verifyingKey) : Accepted cr params s where
  prefixOk := h.owner ▸ hp
  nameLen f hf := by
    obtain ⟨v, seq, hlen, hs⟩ := h.name f hf
    exact (signedField_of_sign hkey .name hs).1 ▸ hlen
  descriptionLen f hf := by
    obtain ⟨v, seq, hlen, hs⟩ := h.description f hf
    exact (signedField_of_sign hkey .description hs).1 ▸ hlen
  defaultBranchLen f hf := by
    obtain ⟨v, seq, hlen, hs⟩ := h.defaultBranch f hf
    exact (signedField_of_sign hkey .defaultBranch hs).1 ▸ hlen
  refOk n e he := by
    obtain ⟨hlen, t, seq, ep, hs⟩ := h.ref n e he
    exact ⟨hlen, (refEntry_of_sign hkey hs).1.trans h.owner.symm⟩
  bundleOk id r hr := by
    obtain ⟨b, ep, hid, hs⟩ := h.record id r hr
    obtain ⟨hbundle, hadded, -⟩ := bundleRecord_of_sign hkey hs
    exact ⟨hbundle ▸ hid, hadded.trans h.owner.symm⟩
  extensionOk k e he := (h.extensionOk hkey he).1
  signed st sig hs := by
    rw [h.owner]
    cases hs with
    | name hf =>
        obtain ⟨v, seq, -, hs⟩ := h.name _ hf
        exact (signedField_of_sign hkey .name hs).2
    | description hf =>
        obtain ⟨v, seq, -, hs⟩ := h.description _ hf
        exact (signedField_of_sign hkey .description hs).2
    | defaultBranch hf =>
        obtain ⟨v, seq, -, hs⟩ := h.defaultBranch _ hf
        exact (signedField_of_sign hkey .defaultBranch hs).2
    | forcePushAllowed hf =>
        obtain ⟨v, seq, hs⟩ := h.forcePushAllowed _ hf
        exact (signedField_of_sign hkey .forcePushAllowed hs).2
    | acl hf =>
        obtain ⟨v, seq, hs⟩ := h.acl _ hf
        exact (signedField_of_sign hkey .acl hs).2
    | upgrade hf =>
        obtain ⟨v, seq, hs⟩ := h.upgrade _ hf
        exact (signedField_of_sign hkey .upgrade hs).2
    | ref he =>
        obtain ⟨-, t, seq, ep, hs⟩ := h.ref _ _ he
        exact (refEntry_of_sign hkey hs).2
    | bundle hr =>
        obtain ⟨b, ep, -, hs⟩ := h.record _ _ hr
        exact (bundleRecord_of_sign hkey hs).2.2
    | extension he => exact (h.extensionOk hkey he).2

omit hkey in
/-- The first state can be made within the limits. -/
theorem exists_initialRepoState (cr : Crypto) (params : RepoParams) (key : SigningKey)
    {name description defaultBranch : String}
    (hn : (utf8 name).length ≤ limits.maxNameBytes)
    (hd : (utf8 description).length ≤ limits.maxDescriptionBytes)
    (hb : (utf8 defaultBranch).length ≤ limits.maxRefNameBytes) :
    ∃ s, initialRepoState cr params key name description defaultBranch = some s := by
  obtain ⟨sn, hn⟩ := @exists_signWith cr params key (.name name 1) hn
  obtain ⟨sd, hd⟩ := @exists_signWith cr params key (.description description 1) hd
  obtain ⟨sb, hb⟩ := @exists_signWith cr params key (.defaultBranch defaultBranch 1) hb
  obtain ⟨sl, hl⟩ := @exists_signWith cr params key (.forcePushAllowed [] 1) nofun
  obtain ⟨sa, ha⟩ := @exists_signWith cr params key (.acl ⟨0, ∅⟩ 1) trivial
  obtain ⟨su, hu⟩ := @exists_signWith cr params key (.upgrade none 1) trivial
  dsimp only [Statement.payload] at hn hd hb hl ha hu
  simp only [initialRepoState, signStringField, signRefListField, signAclField,
    signOptionalRepoKeyField, hn, hd, hb, hl, ha, hu, Option.map_some, Option.bind_eq_bind,
    Option.bind_some]
  exact ⟨_, rfl⟩

omit hkey in
/-- The first state is what its name says, and the signer made it. -/
theorem initialRepoState_made {name description defaultBranch : String}
    (h : initialRepoState cr params key name description defaultBranch = some s) :
    (∃ f, s.name = some f ∧ f.value = name) ∧ (∃ f, s.description = some f ∧ f.value = description) ∧
      (∃ f, s.defaultBranch = some f ∧ f.value = defaultBranch) ∧
      ((utf8 name).length ≤ limits.maxNameBytes →
        (utf8 description).length ≤ limits.maxDescriptionBytes →
        (utf8 defaultBranch).length ≤ limits.maxRefNameBytes → MadeBySigner cr params key s) := by
  simp only [initialRepoState, Option.bind_eq_bind, Option.bind_eq_some_iff, Option.some.injEq] at h
  obtain ⟨fn, hn, fd, hd, fb, hb, fl, hl, fa, ha, fu, hu, rfl⟩ := h
  have hvalue : ∀ {field value : String} {seq : UInt64} {f : SignedField String},
      signStringField cr params key field value seq = some f → f.value = value := fun hf => by
    obtain ⟨sig, -, rfl⟩ := Option.map_eq_some_iff.mp hf
    rfl
  refine ⟨⟨fn, rfl, hvalue hn⟩, ⟨fd, rfl, hvalue hd⟩, ⟨fb, rfl, hvalue hb⟩, fun hln hld hlb => ?_⟩
  refine ⟨rfl, ?_, ?_, ?_, ?_, ?_, ?_, ?_, ?_, ?_⟩
  · rintro _ ⟨⟩
    exact ⟨_, _, hln, hn⟩
  · rintro _ ⟨⟩
    exact ⟨_, _, hld, hd⟩
  · rintro _ ⟨⟩
    exact ⟨_, _, hlb, hb⟩
  · rintro _ ⟨⟩
    exact ⟨_, _, hl⟩
  · rintro _ ⟨⟩
    exact ⟨_, _, ha⟩
  · rintro _ ⟨⟩
    exact ⟨_, _, hu⟩
  all_goals
    intro k e he
    change (∅ : BTreeMap _ _)[k]? = some e at he
    rw [Std.ExtTreeMap.getElem?_empty] at he
    cases he

/-- **Signer and validator agree**: a state that the signer made is accepted, the signer
answers for everything within the limits, and the first state of a repository is
accepted exactly for names within the limits. -/
theorem validateState_signed {n : ℕ} (hbs : StandardBase58 cr) (hn : limits.minPrefixLen ≤ n)
    (hn' : n ≤ limits.maxPrefixLen) :
    (∀ s, MadeBySigner cr (RepoParams.fromOwner cr key.verifyingKey n) key s →
      validateState cr (RepoParams.fromOwner cr key.verifyingKey n) s = .ok ()) ∧
    (∀ st : Statement, st.WithinLimits → ∃ sig,
      signWith cr (RepoParams.fromOwner cr key.verifyingKey n) key (fun k => st.payload cr k) =
        some sig) ∧
    ∀ name description defaultBranch : String,
      (∃ s, initialRepoState cr (RepoParams.fromOwner cr key.verifyingKey n) key name description
          defaultBranch = some s ∧
        validateState cr (RepoParams.fromOwner cr key.verifyingKey n) s = .ok ()) ↔
      (utf8 name).length ≤ limits.maxNameBytes ∧
        (utf8 description).length ≤ limits.maxDescriptionBytes ∧
        (utf8 defaultBranch).length ≤ limits.maxRefNameBytes := by
  have hp : PrefixOk cr (RepoParams.fromOwner cr key.verifyingKey n) key.verifyingKey :=
    prefixOk_fromOwner hbs hn hn'
  generalize RepoParams.fromOwner cr key.verifyingKey n = params at hp ⊢
  have haccept : ∀ s, MadeBySigner cr params key s → validateState cr params s = .ok () :=
    fun s hs => validateState_eq_ok.mpr (hs.accepted hkey hp)
  refine ⟨haccept, fun st => exists_signWith cr params key, fun name description defaultBranch => ⟨?_, ?_⟩⟩
  · rintro ⟨s, hs, hv⟩
    have hv := validateState_eq_ok.mp hv
    obtain ⟨⟨fn, hfn, rfl⟩, ⟨fd, hfd, rfl⟩, ⟨fb, hfb, rfl⟩, -⟩ := initialRepoState_made hs
    exact ⟨hv.nameLen fn hfn, hv.descriptionLen fd hfd, hv.defaultBranchLen fb hfb⟩
  · rintro ⟨hln, hld, hlb⟩
    obtain ⟨s, hs⟩ := exists_initialRepoState cr params key hln hld hlb
    obtain ⟨-, -, -, hmade⟩ := initialRepoState_made hs
    exact ⟨s, hs, haccept s (hmade hln hld hlb)⟩

end

namespace Sample

/-- The owner's key: a signature is the hash of the payload, twice. -/
def signerKey : SigningKey where
  verifyingKey := owner
  sign p := hash p ++ hash p

/-- A verifier of these signatures, with base58. -/
def signerCrypto : Crypto :=
  { unsigned with
    verify := fun pk p σ => pk = owner ∧ σ = signerKey.sign p
    bs58Encode := fun k => base58 k.toList
    bs58Decodes := fun s => s.toList.all (· ∈ base58Alphabet) }

theorem signer_verifies (p : Bytes) :
    signerCrypto.verify signerKey.verifyingKey p (signerKey.sign p) = true :=
  decide_eq_true ⟨rfl, rfl⟩

theorem signer_base58 : StandardBase58 signerCrypto where
  encode _ := rfl
  decodes _ h := List.all_eq_true.mpr fun c hc => decide_eq_true (h c hc)

end Sample

theorem validateState_signed_initial : ∃ s,
    initialRepoState Sample.signerCrypto
      (RepoParams.fromOwner Sample.signerCrypto Sample.signerKey.verifyingKey 4) Sample.signerKey
      "" "" "main" = some s ∧
    validateState Sample.signerCrypto
      (RepoParams.fromOwner Sample.signerCrypto Sample.signerKey.verifyingKey 4) s = .ok () :=
  ((validateState_signed Sample.signer_verifies Sample.signer_base58 (by decide) (by decide)).2.2
    "" "" "main").mpr ⟨by decide, by decide, by decide⟩

end FreenetGit
