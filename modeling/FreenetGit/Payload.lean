/-
# `FreenetGit.Payload` — what a signature covers

`validate_state` checks nine kinds of signatures.  Each covers a payload that
starts with a domain of its own and the signature domain key of the repository,
and then lists the contents of the entry.  A `Statement` is what the owner says
by such a signature; `Statement.payload_inj` is that no two statements, of any
kinds and for any repositories, share a payload.
-/
import FreenetGit.Encoding.Deterministic
import FreenetGit.Encoding.Signed

namespace FreenetGit

open Lib canonical signed

/-! ## Bundle ids -/

/-- The canonical value a bundle is hashed as. -/
def ObjectBundle.value : ObjectBundle → Value
  | singlePack packHash sizeBytes =>
      (((MapBuilder.default.textEntry "kind" (.text "single-pack")).textEntry
        "pack_hash" (.bytes packHash.toList)).textEntry
        "size_bytes" (.uint sizeBytes)).build
  | chunkedPack manifestHash totalSize chunkCount =>
      ((((MapBuilder.default.textEntry "kind" (.text "chunked-pack")).textEntry
        "manifest_hash" (.bytes manifestHash.toList)).textEntry
        "total_size" (.uint totalSize)).textEntry
        "chunk_count" (.uint chunkCount.toUInt64)).build

/-- The bytes whose hash is the id of a bundle. -/
def ObjectBundle.encoding (b : ObjectBundle) : Bytes := b.value.encode

/-- `ObjectBundle::id`. -/
def ObjectBundle.id (cr : Crypto) (b : ObjectBundle) : ObjectBundleId := cr.blake3 b.encoding

theorem ObjectBundle.value_singlePack (h : PackHash) (n : UInt64) :
    (singlePack h n).value = .map [((Value.text "kind").encode, .text "single-pack"),
      ((Value.text "pack_hash").encode, .bytes h.toList),
      ((Value.text "size_bytes").encode, .uint n)] := rfl

theorem ObjectBundle.value_chunkedPack (h : ManifestHash) (t : UInt64) (c : UInt32) :
    (chunkedPack h t c).value = .map [((Value.text "kind").encode, .text "chunked-pack"),
      ((Value.text "total_size").encode, .uint t),
      ((Value.text "chunk_count").encode, .uint c.toUInt64),
      ((Value.text "manifest_hash").encode, .bytes h.toList)] := rfl

/-- A bundle is hashed as a value that the constructors build. -/
theorem ObjectBundle.value_constructed (b : ObjectBundle) : Constructed b.value := by
  have text : ∀ {s : String}, (utf8 s).length < 2 ^ 64 → Constructed (.text s) := fun h => .text h
  have hash : ∀ h : Vector UInt8 32, Constructed (.bytes h.toList) := fun h => .bytes (by simp)
  have hsmall : ∀ {x n : ℕ}, x = n → n < 2 ^ 64 → x < 2 ^ 64 := fun hx hn => hx ▸ hn
  cases b with
  | singlePack h n =>
      exact .map (((ConstructedBuilder.default.textEntry (by decide) (text (by decide))).textEntry
        (by decide) (hash h)).textEntry (by decide) (.uint n)) (hsmall (n := 3) rfl (by simp))
  | chunkedPack h t c =>
      exact .map ((((ConstructedBuilder.default.textEntry (by decide) (text (by decide))).textEntry
        (by decide) (hash h)).textEntry (by decide) (.uint t)).textEntry (by decide) (.uint _))
        (hsmall (n := 4) rfl (by simp))

theorem ObjectBundle.value_inj {b c : ObjectBundle} (h : b.value = c.value) : b = c := by
  cases b <;> cases c <;>
    simp_all [value_singlePack, value_chunkedPack, Vector.toList_inj, UInt32.toUInt64_inj]

/-- **Bundles with equal encodings are equal**, of both variants. -/
theorem ObjectBundle.encoding_inj {b c : ObjectBundle} (h : b.encoding = c.encoding) : b = c :=
  value_inj (b.value_constructed.built.encode_inj c.value_constructed.built h)

theorem ObjectBundle.id_inj {cr : Crypto} {S : Set Bytes} (hcr : S.InjOn cr.blake3)
    {b c : ObjectBundle} (hb : b.encoding ∈ S) (hc : c.encoding ∈ S) (h : b.id cr = c.id cr) :
    b = c :=
  encoding_inj (hcr hb hc h)

/-! ## The signature domain key -/

/-- The bytes `params_repo_key` hashes: the version, the prefix and the owner. -/
def repoKeyInput (params : RepoParams) (owner : PublicKey) : Bytes :=
  utf8 wireVersion ++ utf8 params.prefixStr ++ owner.toList

def paramsRepoKey (cr : Crypto) (params : RepoParams) (owner : PublicKey) : RepoKey :=
  cr.blake3 (repoKeyInput params owner)

/-- `signature_domain_key`. -/
def signatureDomainKey (cr : Crypto) (params : RepoParams) (owner : PublicKey) : RepoKey :=
  paramsRepoKey cr params owner

/-- The input has no length prefixes, but the version and the owner have fixed lengths. -/
theorem repoKeyInput_inj {p p' : RepoParams} {o o' : PublicKey}
    (h : repoKeyInput p o = repoKeyInput p' o') : p = p' ∧ o = o' := by
  unfold repoKeyInput at h
  obtain ⟨hp, ho⟩ := List.append_inj' h (by simp)
  have hp := utf8_inj (List.append_cancel_left hp)
  obtain ⟨s⟩ := p
  obtain ⟨s'⟩ := p'
  exact ⟨congrArg RepoParams.mk hp, Vector.toList_inj.mp ho⟩

/-! ## Payloads -/

def signedPayloadStringField (repoKey : RepoKey) (fieldName value : String) (updateSeq : UInt64) :
    Option Bytes :=
  build fieldName fun b =>
    ((b.fieldBytes repoKey.toList).fieldStr value).fieldU64 updateSeq

/-- `u32::try_from(n).unwrap_or(u32::MAX)`. -/
def u32OrMax (n : Nat) : UInt32 := UInt32.ofNat (min n (2 ^ 32 - 1))

def signedPayloadRefListField (repoKey : RepoKey) (fieldName : String) (refs : List RefName)
    (updateSeq : UInt64) : Option Bytes :=
  build fieldName fun b =>
    let b := (b.fieldBytes repoKey.toList).fieldU32 (u32OrMax refs.length)
    let b := refs.foldl (fun b r => b.fieldStr r) b
    b.fieldU64 updateSeq

def signedPayloadAclField (repoKey : RepoKey) (fieldName : String) (acl : AclState)
    (updateSeq : UInt64) : Option Bytes :=
  build fieldName fun b =>
    let b := ((b.fieldBytes repoKey.toList).fieldU64 acl.epoch).fieldU32 (u32OrMax acl.grants.size)
    let b := acl.grants.foldl (fun b writer grant =>
      ((b.fieldBytes writer.toList).fieldU64 grant.grantedAtEpoch).fieldOptionBytes
        (grant.revokedAtEpoch.map u64le)) b
    b.fieldU64 updateSeq

def signedPayloadOptionalRepoKeyField (repoKey : RepoKey) (fieldName : String)
    (successor : Option RepoKey) (updateSeq : UInt64) : Option Bytes :=
  build fieldName fun b =>
    ((b.fieldBytes repoKey.toList).fieldOptionBytes (successor.map Vector.toList)).fieldU64
      updateSeq

def signedPayloadRefEntry (repoKey : RepoKey) (refName : String) (target : CommitHash)
    (updateSeq authEpoch : UInt64) : Option Bytes :=
  build "ref-update" fun b =>
    ((((b.fieldBytes repoKey.toList).fieldStr refName).fieldBytes target.toList).fieldU64
      updateSeq).fieldU64 authEpoch

def signedPayloadBundleRecord (cr : Crypto) (repoKey : RepoKey) (bundle : ObjectBundle)
    (authEpoch : UInt64) : Option Bytes :=
  let bundleId := bundle.id cr
  build "object-bundle" fun b =>
    ((b.fieldBytes repoKey.toList).fieldBytes bundleId.toList).fieldU64 authEpoch

def signedPayloadExtension (repoKey : RepoKey) (extKey : String) (value : Bytes)
    (updateSeq : UInt64) : Option Bytes :=
  build "extension" fun b =>
    (((b.fieldBytes repoKey.toList).fieldStr extKey).fieldBytes value).fieldU64 updateSeq

/-! ## Statements -/

/-- What a signature of the owner says, for each kind of entry. -/
inductive Statement where
  | name (value : String) (updateSeq : UInt64)
  | description (value : String) (updateSeq : UInt64)
  | defaultBranch (value : RefName) (updateSeq : UInt64)
  | forcePushAllowed (value : List RefName) (updateSeq : UInt64)
  | acl (value : AclState) (updateSeq : UInt64)
  | upgrade (value : Option RepoKey) (updateSeq : UInt64)
  | ref (refName : RefName) (target : CommitHash) (updateSeq authEpoch : UInt64)
  | bundle (bundle : ObjectBundle) (authEpoch : UInt64)
  | extension (extKey : String) (value : Bytes) (updateSeq : UInt64)
deriving DecidableEq

namespace Statement

/-- The payload a statement is signed as. -/
def payload (cr : Crypto) (repoKey : RepoKey) : Statement → Option Bytes
  | name v seq => signedPayloadStringField repoKey "name" v seq
  | description v seq => signedPayloadStringField repoKey "description" v seq
  | defaultBranch v seq => signedPayloadStringField repoKey "default_branch" v seq
  | forcePushAllowed v seq => signedPayloadRefListField repoKey "force_push_allowed" v seq
  | acl v seq => signedPayloadAclField repoKey "acl" v seq
  | upgrade v seq => signedPayloadOptionalRepoKeyField repoKey "upgrade" v seq
  | ref n t seq ep => signedPayloadRefEntry repoKey n t seq ep
  | bundle b ep => signedPayloadBundleRecord cr repoKey b ep
  | extension k v seq => signedPayloadExtension repoKey k v seq

/-- The domain suffix of a statement's kind. -/
def suffix : Statement → String
  | name .. => "name"
  | description .. => "description"
  | defaultBranch .. => "default_branch"
  | forcePushAllowed .. => "force_push_allowed"
  | acl .. => "acl"
  | upgrade .. => "upgrade"
  | ref .. => "ref-update"
  | bundle .. => "object-bundle"
  | extension .. => "extension"

/-- The fields of one grant. -/
def grantFields (g : PublicKey × WriterGrant) : List Bytes :=
  [g.1.toList, u64le g.2.grantedAtEpoch, Builder.optionBytes (g.2.revokedAtEpoch.map u64le)]

/-- The fields of a payload after the domain and the key. -/
def content (cr : Crypto) : Statement → List Bytes
  | name v seq | description v seq | defaultBranch v seq => [utf8 v, u64le seq]
  | forcePushAllowed v seq =>
      u32le (u32OrMax v.length) :: (v.flatMap (fun r => [utf8 r]) ++ [u64le seq])
  | acl v seq =>
      u64le v.epoch :: u32le (u32OrMax v.grants.size) ::
        (v.grants.toList.flatMap grantFields ++ [u64le seq])
  | upgrade v seq => [Builder.optionBytes (v.map Vector.toList), u64le seq]
  | ref n t seq ep => [utf8 n, t.toList, u64le seq, u64le ep]
  | bundle b ep => [(b.id cr).toList, u64le ep]
  | extension k v seq => [utf8 k, v, u64le seq]

/-- A payload is the frame of its domain, the key and the content. -/
theorem payload_eq_frame (cr : Crypto) (repoKey : RepoKey) (st : Statement) :
    st.payload cr repoKey =
      frame (utf8 (Builder.domain st.suffix) :: repoKey.toList :: st.content cr) := by
  have start := (Builder.IsFrame.new st.suffix).fieldBytes repoKey.toList
  cases st with
  | name v seq => exact (start.fieldStr v).fieldU64 seq
  | description v seq => exact (start.fieldStr v).fieldU64 seq
  | defaultBranch v seq => exact (start.fieldStr v).fieldU64 seq
  | forcePushAllowed v seq =>
      have loop := Builder.IsFrame.foldl Builder.fieldStr (fun r => [utf8 r])
        (fun r h => h.fieldStr r) v (start.fieldU32 (u32OrMax v.length))
      have h := loop.fieldU64 seq
      simp only [List.cons_append, List.nil_append] at h
      exact h
  | acl v seq =>
      have loop := Builder.IsFrame.foldl
        (fun b g => ((b.fieldBytes g.1.toList).fieldU64 g.2.grantedAtEpoch).fieldOptionBytes
          (g.2.revokedAtEpoch.map u64le)) grantFields
        (fun g h => by
          have := ((h.fieldBytes g.1.toList).fieldU64 g.2.grantedAtEpoch).fieldOptionBytes
            (g.2.revokedAtEpoch.map u64le)
          simpa [grantFields] using this)
        v.grants.toList ((start.fieldU64 v.epoch).fieldU32 (u32OrMax v.grants.size))
      have loop := loop.fieldU64 seq
      rw [← Std.ExtTreeMap.foldl_eq_foldl_toList (f := fun b (w : PublicKey) (g : WriterGrant) =>
        ((Builder.fieldBytes b w.toList).fieldU64 g.grantedAtEpoch).fieldOptionBytes
          (g.revokedAtEpoch.map u64le))] at loop
      simp only [List.cons_append, List.nil_append] at loop
      exact loop
  | upgrade v seq => exact (start.fieldOptionBytes _).fieldU64 seq
  | ref n t seq ep => exact (((start.fieldStr n).fieldBytes t.toList).fieldU64 seq).fieldU64 ep
  | bundle b ep => exact (start.fieldBytes _).fieldU64 ep
  | extension k v seq => exact ((start.fieldStr k).fieldBytes v).fieldU64 seq

/-- **A payload can be built** where every field of its content has a length below 4 GiB. -/
theorem exists_payload (cr : Crypto) (repoKey : RepoKey) {st : Statement}
    (h : ∀ x ∈ st.content cr, Fits32 x) : ∃ p, st.payload cr repoKey = some p := by
  have hdomain : Fits32 (utf8 (Builder.domain st.suffix)) := by
    cases st <;> (dsimp only [suffix]; decide)
  have hkey : Fits32 repoKey.toList := by
    rw [Fits32, Vector.length_toList]
    decide
  refine ⟨_, (payload_eq_frame cr repoKey st).trans (frame_eq_some_iff.mpr ⟨?_, rfl⟩)⟩
  exact List.forall_mem_cons.mpr ⟨hdomain, List.forall_mem_cons.mpr ⟨hkey, h⟩⟩

/-- Every text and every byte string of a statement is shorter than 4 GiB. -/
def FieldsFit : Statement → Prop
  | .name v _ | .description v _ | .defaultBranch v _ => Fits32 (utf8 v)
  | .forcePushAllowed v _ => ∀ r ∈ v, Fits32 (utf8 r)
  | .acl _ _ | .upgrade _ _ | .bundle _ _ => True
  | .ref n _ _ _ => Fits32 (utf8 n)
  | .extension k v _ => Fits32 (utf8 k) ∧ Fits32 v

/-- A payload can be built for fields that are shorter than 4 GiB. -/
theorem FieldsFit.exists_payload (cr : Crypto) (repoKey : RepoKey) {st : Statement}
    (h : st.FieldsFit) : ∃ p, st.payload cr repoKey = some p := by
  have hword : ∀ x : UInt64, Fits32 (u64le x) := fun x => by
    rw [Fits32, length_u64le]
    decide
  have hword32 : ∀ x : UInt32, Fits32 (u32le x) := fun x => by
    rw [Fits32, length_u32le]
    decide
  have harray : ∀ {n : ℕ} (v : Vector UInt8 n), n < 2 ^ 32 → Fits32 v.toList := fun v hn => by
    rwa [Fits32, Vector.length_toList]
  have hoption : ∀ o : Option Bytes, (∀ b, o = some b → b.length ≤ 32) →
      Fits32 (signed.Builder.optionBytes o) := fun o ho => by
    cases o with
    | none => exact (by decide : 1 < 2 ^ 32)
    | some b => exact Nat.lt_of_le_of_lt (Nat.succ_le_succ (ho b rfl)) (by decide : 33 < 2 ^ 32)
  have hfits : ∀ x ∈ st.content cr, Fits32 x := by
    cases st with
    | name v seq | description v seq | defaultBranch v seq =>
        exact List.forall_mem_cons.mpr ⟨h, List.forall_mem_singleton.mpr (hword _)⟩
    | forcePushAllowed v seq =>
        refine List.forall_mem_cons.mpr ⟨hword32 _, List.forall_mem_append.mpr ⟨?_, ?_⟩⟩
        · intro x hx
          obtain ⟨r, hr, hx⟩ := List.mem_flatMap.mp hx
          exact List.mem_singleton.mp hx ▸ h r hr
        · exact List.forall_mem_singleton.mpr (hword _)
    | acl v seq =>
        refine List.forall_mem_cons.mpr ⟨hword _, List.forall_mem_cons.mpr ⟨hword32 _,
          List.forall_mem_append.mpr ⟨?_, List.forall_mem_singleton.mpr (hword _)⟩⟩⟩
        intro x hx
        obtain ⟨g, -, hx⟩ := List.mem_flatMap.mp hx
        simp only [grantFields, List.mem_cons, List.not_mem_nil, or_false] at hx
        rcases hx with rfl | rfl | rfl
        · exact harray _ (by decide)
        · exact hword _
        · refine hoption _ fun b hb => ?_
          obtain ⟨w, -, rfl⟩ := Option.map_eq_some_iff.mp hb
          exact (length_u64le w).trans_le (by decide)
    | upgrade v seq =>
        refine List.forall_mem_cons.mpr ⟨hoption _ fun b hb => ?_,
          List.forall_mem_singleton.mpr (hword _)⟩
        obtain ⟨k, -, rfl⟩ := Option.map_eq_some_iff.mp hb
        exact Vector.length_toList.le
    | ref n t seq ep =>
        simp only [content, List.forall_mem_cons]
        exact ⟨h, harray t (by decide), hword _, hword _, by simp⟩
    | bundle b ep =>
        simp only [content, List.forall_mem_cons]
        exact ⟨harray _ (by decide), hword _, by simp⟩
    | extension k v seq =>
        simp only [content, List.forall_mem_cons]
        exact ⟨h.1, h.2, hword _, by simp⟩
  exact Statement.exists_payload cr repoKey hfits

/-- The size limits on what a statement says.  A branch in the list of a
`force_push_allowed` has none; the payload builder panics at 4 GiB. -/
def WithinLimits : Statement → Prop
  | .name v _ => (utf8 v).length ≤ limits.maxNameBytes
  | .description v _ => (utf8 v).length ≤ limits.maxDescriptionBytes
  | .defaultBranch v _ => (utf8 v).length ≤ limits.maxRefNameBytes
  | .forcePushAllowed v _ => ∀ r ∈ v, Fits32 (utf8 r)
  | .acl _ _ | .upgrade _ _ | .bundle _ _ => True
  | .ref n _ _ _ => (utf8 n).length ≤ limits.maxRefNameBytes
  | .extension k v _ => (utf8 k).length ≤ limits.maxExtensionKeyBytes ∧
      v.length ≤ limits.maxExtensionValueBytes

theorem WithinLimits.fieldsFit {st : Statement} (h : st.WithinLimits) : st.FieldsFit := by
  have hbounded : ∀ {n : ℕ} {x : Bytes}, x.length ≤ n → n < 2 ^ 32 → Fits32 x :=
    fun hx hn => Nat.lt_of_le_of_lt hx hn
  cases st with
  | name | description | defaultBranch | ref => exact hbounded h (by decide)
  | forcePushAllowed => exact h
  | acl | upgrade | bundle => trivial
  | extension => exact ⟨hbounded h.1 (by decide), hbounded h.2 (by decide)⟩

/-- A payload can be built for what is within the limits. -/
theorem WithinLimits.exists_payload (cr : Crypto) (repoKey : RepoKey) {st : Statement}
    (h : st.WithinLimits) : ∃ p, st.payload cr repoKey = some p :=
  h.fieldsFit.exists_payload cr repoKey

theorem flatMap_grantFields_inj : ∀ {gs hs : List (PublicKey × WriterGrant)},
    gs.flatMap grantFields = hs.flatMap grantFields → gs = hs
  | [], [], _ => rfl
  | [], h :: _, e => by simp [grantFields] at e
  | g :: _, [], e => by simp [grantFields] at e
  | (w, ⟨ga, ra⟩) :: gs, (w', ⟨ga', ra'⟩) :: hs, e => by
      simp only [List.flatMap_cons, grantFields, List.cons_append, List.nil_append,
        List.cons.injEq, Vector.toList_inj] at e
      obtain ⟨rfl, hg, hr, e⟩ := e
      have hr := Option.map_injective (fun _ _ => u64le_inj) (Builder.optionBytes_inj hr)
      rw [u64le_inj hg, hr, flatMap_grantFields_inj e]

/-- The byte strings that are hashed to write a statement. -/
def hashed : Statement → Set Bytes
  | bundle b _ => {b.encoding}
  | _ => ∅

theorem suffix_domain_inj {s t : String}
    (h : utf8 (Builder.domain s) = utf8 (Builder.domain t)) : s = t := by
  have hdomain := utf8_inj h
  rw [Builder.domain, Builder.domain] at hdomain
  exact (String.append_right_inj _).mp hdomain

/-- The statements are of one kind and have the same arguments; a bundle is named by its id. -/
def SameArguments (cr : Crypto) : Statement → Statement → Prop
  | bundle b ep, bundle b' ep' => b.id cr = b'.id cr ∧ ep = ep'
  | st, st' => st = st'

@[refl] theorem SameArguments.refl {cr : Crypto} : ∀ st : Statement, SameArguments cr st st
  | bundle .. => ⟨rfl, rfl⟩
  | name .. | description .. | defaultBranch .. | forcePushAllowed .. | acl .. | upgrade ..
  | ref .. | extension .. => rfl

/-- Statements of one kind with the same content have the same arguments. -/
theorem sameArguments_of_content {cr : Crypto} {st st' : Statement} (hs : st.suffix = st'.suffix)
    (h : st.content cr = st'.content cr) : SameArguments cr st st' := by
  cases st <;> cases st' <;> first | exact absurd hs (by simp only [suffix]; decide) | skip
  case name.name | description.description | defaultBranch.defaultBranch =>
      simp only [content, List.cons.injEq, and_true] at h
      rw [utf8_inj h.1, u64le_inj h.2]
  case forcePushAllowed.forcePushAllowed =>
      simp only [content, List.cons.injEq] at h
      obtain ⟨hv, hseq⟩ := List.append_inj' h.2 rfl
      rw [← List.map_eq_flatMap, ← List.map_eq_flatMap] at hv
      rw [List.map_injective_iff.mpr (fun _ _ => utf8_inj) hv,
        u64le_inj (List.cons.inj hseq).1]
  case acl.acl v _ v' _ =>
      simp only [content, List.cons.injEq] at h
      obtain ⟨hep, -, h⟩ := h
      obtain ⟨hg, hseq⟩ := List.append_inj' h rfl
      obtain ⟨ep, gs⟩ := v
      obtain ⟨ep', gs'⟩ := v'
      have hgs : gs = gs' := Std.ExtTreeMap.toList_inj.mp (flatMap_grantFields_inj hg)
      rw [hgs, u64le_inj (List.cons.inj hseq).1, show ep = ep' from u64le_inj hep]
  case upgrade.upgrade =>
      simp only [content, List.cons.injEq, and_true] at h
      rw [Option.map_injective (fun _ _ => Vector.toList_inj.mp) (Builder.optionBytes_inj h.1),
        u64le_inj h.2]
  case ref.ref =>
      simp only [content, List.cons.injEq, and_true, Vector.toList_inj] at h
      rw [utf8_inj h.1, h.2.1, u64le_inj h.2.2.1, u64le_inj h.2.2.2]
  case bundle.bundle b _ b' _ =>
      simp only [content, List.cons.injEq, and_true, Vector.toList_inj] at h
      exact ⟨h.1, u64le_inj h.2⟩
  case extension.extension =>
      simp only [content, List.cons.injEq, and_true] at h
      rw [utf8_inj h.1, h.2.1, u64le_inj h.2.2]

/-- Bundles with one id are one bundle where the hash does not collide. -/
theorem SameArguments.eq {cr : Crypto} {st st' : Statement}
    (hcr : (st.hashed ∪ st'.hashed).InjOn cr.blake3) (h : SameArguments cr st st') : st = st' := by
  cases st <;> cases st' <;> first | exact h | skip
  case bundle.bundle b _ b' _ =>
      obtain ⟨hid, rfl⟩ := h
      rw [ObjectBundle.id_inj hcr (.inl rfl) (.inr rfl) hid]

/-- **A payload determines the arguments and the key it is bound to.** -/
theorem payload_sameArguments {cr : Crypto} {k k' : RepoKey} {st st' : Statement} {p : Bytes}
    (h : st.payload cr k = some p) (h' : st'.payload cr k' = some p) :
    k = k' ∧ SameArguments cr st st' := by
  rw [payload_eq_frame] at h h'
  have e := frame_inj h h'
  simp only [List.cons.injEq, Vector.toList_inj] at e
  obtain ⟨hd, hk, hc⟩ := e
  exact ⟨hk, sameArguments_of_content (suffix_domain_inj hd) hc⟩

/-- **A payload determines its statement and the key it is bound to.**  Bundles
are named by hash, so they need that the hash does not collide on the two
bundles. -/
theorem payload_inj {cr : Crypto} {k k' : RepoKey} {st st' : Statement} {p : Bytes}
    (hcr : (st.hashed ∪ st'.hashed).InjOn cr.blake3) (h : st.payload cr k = some p)
    (h' : st'.payload cr k' = some p) : k = k' ∧ st = st' :=
  (payload_sameArguments h h').imp_right fun hsame => hsame.eq hcr

end Statement

end FreenetGit
