/-
# `FreenetGit.Push` — what a push sends

`handle_push` reads the state of the contract, and for each refspec packs the
missing objects, publishes the pack, and puts three signed entries into a
delta: the bundle, the ref with the next sequence number, and the bundle's tip.
Git and the network are a `PushHost`.  What one refspec can do is said once, in
`pushSpec_eq_ok`; the properties of the delta follow from it by induction over
the refspecs (`DeltaOk`).
-/
import FreenetGit.Signing
import FreenetGit.Lib.Text

namespace FreenetGit

open Lib

/-- What a push asks of git and of the network. -/
structure PushHost where
  /-- `git rev-parse --verify <ref>`, the output trimmed. -/
  resolveRef : String → Outcome String String
  /-- `git rev-parse --verify --quiet <sha>^{commit}`. -/
  commitExists : String → Outcome String Bool
  /-- `git rev-list --objects <want> [^<have>] | git pack-objects --stdout`. -/
  revPack : Option String → String → Outcome String Bytes
  /-- `wsclient::put_pack`. -/
  putPack : Bytes → Outcome String Unit
  /-- `chunked::publish_chunked_pack_with_progress`. -/
  publishChunked : Bytes → Outcome String ObjectBundle

/-- The settings of a push: the chunk size, and `FREENET_GIT_MIRROR_MODE`, trimmed. -/
structure PushEnv where
  chunkSize : UInt32
  mirrorMode : Option String

/-! ## Refspecs and packs -/

/-- `parse_push_spec`: `[+]<src>:<dst>`. -/
def parsePushSpec (spec : String) : Outcome String (Bool × String × String) :=
  let (force, forceStripped) := match spec.toList with
    | '+' :: rest => (true, rest)
    | cs => (false, cs)
  match forceStripped.dropWhile (· ≠ ':') with
  | [] => .error (.err "push spec missing destination")
  | _ :: dst =>
      .ok (force, String.ofList (forceStripped.takeWhile (· ≠ ':')), String.ofList dst)

def isAlreadyUpToDate (prev : Option String) (newTarget : String) : Bool := prev == some newTarget

def remoteTipMissing (h : String) : String :=
  "remote tip " ++ h ++ " is not present (or not a commit) in the local repo. " ++
  "For snapshot/orphan-style pushes use `git push --force` (or prefix the refspec with `+`) to " ++
  "overwrite the remote tip's history. For regular fast-forward pushes, run `git fetch` to " ++
  "populate the missing tip first."

/-- `build_pack`: a `have` that is not a local commit is dropped by a forced push. -/
def buildPack (host : PushHost) (have_ : Option String) (want : String) (force : Bool) :
    Outcome String Bytes :=
  match have_ with
  | none => host.revPack none want
  | some h => do
      let exists_ ← host.commitExists h
      if exists_ then host.revPack (some h) want
      else if force then host.revPack none want
      else .error (.err (remoteTipMissing h))

def parseSha1 (hexStr : String) : Outcome String CommitHash :=
  match hexDecode hexStr with
  | none => .error (.err "decode commit sha")
  | some bytes =>
      match toArray? 20 bytes with
      | none => .error (.err ("commit sha must be 20 bytes (got " ++
          toString (utf8 hexStr).length ++ " hex chars)"))
      | some arr => .ok arr

theorem parseSha1_hexEncode (c : CommitHash) : parseSha1 (hexEncode c.toList) = .ok c := by
  rw [parseSha1, hexDecode_hexEncode]
  dsimp only
  rw [toArray?_toList]

/-! ## The loop over the refspecs -/

/-- The delta and the report so far. -/
structure PushAcc where
  delta : RepoState
  okLines : List String
  errorLines : List String
deriving DecidableEq

/-- The `expect` of a payload builder. -/
def orPanic {α : Type} : Option α → Outcome String α
  | none => .error .panicked
  | some a => .ok a

/-- `u64::div_ceil`: a division by zero panics. -/
def divCeil (a b : UInt64) : Outcome String UInt64 :=
  if b = 0 then .error .panicked
  else .ok (if a % b = 0 then a / b else a / b + 1)

/-- `BUNDLE_TIP_UPDATE_SEQ`. -/
def bundleTipUpdateSeq : UInt64 := 1

/-- `MIRROR_MODE_EXTENSION_KEY`. -/
def mirrorModeExtensionKey : String := "mirror-mode"

variable (cr : Crypto) (params : RepoParams) (key : SigningKey) (host : PushHost) (env : PushEnv)

/-- A pack within the chunk size is one contract, a larger one is chunked.  The number of
chunks is announced before they are published. -/
def publishBundle (packBytes : Bytes) : Outcome String ObjectBundle :=
  if packBytes.length ≤ env.chunkSize.toNat then do
    host.putPack packBytes
    .ok (.singlePack (cr.blake3 packBytes) (UInt64.ofNat packBytes.length))
  else do
    let _totalChunks ← divCeil (UInt64.ofNat packBytes.length) env.chunkSize.toUInt64
    host.publishChunked packBytes

/-- The number of a ref in the state that was read, 0 if there is none. -/
def seenSeq (state : RepoState) (dst : RefName) : UInt64 :=
  ((state.refs[dst]?).map (·.updateSeq)).getD 0

/-- The three entries a published pack adds; the next number wraps around. -/
def addEntries (state : RepoState) (dst : RefName) (newTarget : String) (bundle : ObjectBundle)
    (acc : PushAcc) : Outcome String PushAcc := do
  let bundleId := bundle.id cr
  let record ← orPanic (signBundleRecord cr params key bundle 0)
  let newSeq := seenSeq state dst + 1
  let target ← parseSha1 newTarget
  let entry ← orPanic (signRefEntry cr params key dst target newSeq 0)
  let tip ← orPanic (signBundleTipExtension cr params key bundleId target bundleTipUpdateSeq)
  .ok { acc with
    delta := { acc.delta with
      objectIndex := acc.delta.objectIndex.insert bundleId record
      refs := acc.delta.refs.insert dst entry
      extensions := acc.delta.extensions.insert tip.1 tip.2 }
    okLines := acc.okLines ++ ["ok " ++ dst] }

/-- The body of the loop. -/
def pushSpec (state : RepoState) (acc : PushAcc) (spec : String) : Outcome String PushAcc := do
  let (force, src, dst) ← parsePushSpec spec
  if src.isEmpty then
    .ok { acc with
      errorLines := acc.errorLines ++ ["error " ++ dst ++ " delete-ref not supported in Phase 1.0"] }
  else do
    let newTarget ← host.resolveRef src
    let prev := (state.refs[dst]?).map fun e => hexEncode e.target.toList
    if isAlreadyUpToDate prev newTarget then
      .ok { acc with okLines := acc.okLines ++ ["ok " ++ dst] }
    else
      match buildPack host prev newTarget force with
      | .error .panicked => .error .panicked
      | .error (.err e) =>
          .ok { acc with errorLines := acc.errorLines ++ ["error " ++ dst ++ " " ++ e] }
      | .ok packBytes => do
          let bundle ← publishBundle cr host env packBytes
          addEntries cr params key state dst newTarget bundle acc

/-- The mirror-mode extension, written when its value changes. -/
def pushMirrorMode (state : RepoState) (acc : PushAcc) : Outcome String PushAcc :=
  match env.mirrorMode with
  | none | some "" => .ok acc
  | some mode =>
      if mode = "snapshot" ∨ mode = "history" then
        let want := utf8 mode
        if (state.extensions[mirrorModeExtensionKey]?).map (·.value) ≠ some want then do
          let newSeq :=
            ((state.extensions[mirrorModeExtensionKey]?).map (·.updateSeq)).getD 0 + 1
          let entry ← orPanic (signExtension cr params key mirrorModeExtensionKey want newSeq)
          .ok { acc with delta := { acc.delta with
            extensions := acc.delta.extensions.insert mirrorModeExtensionKey entry } }
        else .ok acc
      else .error (.err ("FREENET_GIT_MIRROR_MODE must be the literal \"snapshot\" or " ++
        "\"history\" (got " ++ debug mode.toList ++ ")"))

/-- The delta of a push, with its report. -/
def buildDelta (state : RepoState) (pushes : List String) : Outcome String PushAcc := do
  let acc ← pushes.foldlM (pushSpec cr params key host env state) ⟨RepoState.default, [], []⟩
  pushMirrorMode cr params key env state acc

/-- `handle_push` up to the UPDATE it sends: nothing to send, or a delta that
the merge accepted locally. -/
def handlePush (state : RepoState) (pushes : List String) :
    Outcome String (Option RepoState × PushAcc) := do
  let acc ← buildDelta cr params key host env state pushes
  if acc.delta.objectIndex.isEmpty ∧ acc.delta.refs.isEmpty ∧ acc.delta.extensions.isEmpty then
    .ok (none, acc)
  else
    match updateState cr params state acc.delta with
    | .ok _ => .ok (some acc.delta, acc)
    | .error .panicked => .error .panicked
    | .error (.err e) =>
        .error (.err ("local update_state rejected our delta: " ++ e.display))

/-! ## What one refspec can do -/

section

variable {cr : Crypto} {params : RepoParams} {key : SigningKey} {host : PushHost} {env : PushEnv}
  {state : RepoState} {acc acc' : PushAcc}

theorem orPanic_eq_ok {α : Type} {o : Option α} {a : α} : orPanic o = .ok a ↔ o = some a := by
  cases o with
  | none => exact ⟨nofun, nofun⟩
  | some b => simp only [orPanic, Except.ok.injEq, Option.some.injEq]

/-- A published pack adds its record, the ref and the tip to the delta. -/
structure AddsEntries (cr : Crypto) (params : RepoParams) (key : SigningKey) (state : RepoState)
    (dst : RefName) (target : CommitHash) (bundle : ObjectBundle) (acc acc' : PushAcc) where
  record : ObjectBundleRecord
  entry : RefEntry
  tip : ExtensionEntry
  record_eq : signBundleRecord cr params key bundle 0 = some record
  entry_eq : signRefEntry cr params key dst target (seenSeq state dst + 1) 0 = some entry
  tip_eq : signExtension cr params key (bundleTipExtensionKey (bundle.id cr)) target.toList
    bundleTipUpdateSeq = some tip
  objectIndex_eq : acc'.delta.objectIndex = acc.delta.objectIndex.insert (bundle.id cr) record
  refs_eq : acc'.delta.refs = acc.delta.refs.insert dst entry
  extensions_eq : acc'.delta.extensions =
    acc.delta.extensions.insert (bundleTipExtensionKey (bundle.id cr)) tip
  rest_eq : acc'.delta = { acc.delta with
    refs := acc'.delta.refs, objectIndex := acc'.delta.objectIndex, extensions := acc'.delta.extensions }
  okLines_eq : acc'.okLines = acc.okLines ++ ["ok " ++ dst]

theorem addEntries_eq_ok {dst : RefName} {newTarget : String} {bundle : ObjectBundle}
    (h : addEntries cr params key state dst newTarget bundle acc = .ok acc') :
    ∃ target, parseSha1 newTarget = .ok target ∧
      Nonempty (AddsEntries cr params key state dst target bundle acc acc') := by
  obtain ⟨record, hr, h⟩ := bind_eq_ok.mp h
  obtain ⟨target, ht, h⟩ := bind_eq_ok.mp h
  obtain ⟨entry, he, h⟩ := bind_eq_ok.mp h
  obtain ⟨tip, htip, h⟩ := bind_eq_ok.mp h
  obtain ⟨x, hx, rfl⟩ := Option.map_eq_some_iff.mp (orPanic_eq_ok.mp htip)
  cases h
  exact ⟨target, ht, ⟨⟨record, entry, x, orPanic_eq_ok.mp hr, orPanic_eq_ok.mp he, hx,
    rfl, rfl, rfl, rfl, rfl⟩⟩⟩

/-- The refspec was pushed: its target was resolved and is new, and its pack was
built and published. -/
structure Pushes (cr : Crypto) (params : RepoParams) (key : SigningKey) (host : PushHost)
    (env : PushEnv) (state : RepoState) (spec : String) (acc acc' : PushAcc) where
  force : Bool
  src : String
  dst : RefName
  newTarget : String
  packBytes : Bytes
  bundle : ObjectBundle
  target : CommitHash
  spec_eq : parsePushSpec spec = .ok (force, src, dst)
  resolve_eq : host.resolveRef src = .ok newTarget
  new : (state.refs[dst]?).map (fun e => hexEncode e.target.toList) ≠ some newTarget
  pack_eq : buildPack host ((state.refs[dst]?).map fun e => hexEncode e.target.toList)
    newTarget force = .ok packBytes
  publish_eq : publishBundle cr host env packBytes = .ok bundle
  target_eq : parseSha1 newTarget = .ok target
  adds : AddsEntries cr params key state dst target bundle acc acc'

/-- The refspec is up to date: its target resolves to the one the ref has. -/
structure UpToDate (host : PushHost) (state : RepoState) (spec : String) (acc acc' : PushAcc) where
  force : Bool
  src : String
  dst : RefName
  cur : RefEntry
  spec_eq : parsePushSpec spec = .ok (force, src, dst)
  resolve_eq : host.resolveRef src = .ok (hexEncode cur.target.toList)
  ref_eq : state.refs[dst]? = some cur
  delta_eq : acc'.delta = acc.delta
  okLines_eq : acc'.okLines = acc.okLines ++ ["ok " ++ dst]

/-- **One refspec** is reported as failed, is up to date, or is pushed. -/
theorem pushSpec_eq_ok {spec : String}
    (h : pushSpec cr params key host env state acc spec = .ok acc') :
    (acc'.delta = acc.delta ∧ acc'.okLines = acc.okLines) ∨
      Nonempty (UpToDate host state spec acc acc') ∨
      Nonempty (Pushes cr params key host env state spec acc acc') := by
  obtain ⟨⟨force, src, dst⟩, hspec, h⟩ := bind_eq_ok.mp h
  dsimp only at h
  split at h
  · cases h
    exact .inl ⟨rfl, rfl⟩
  · obtain ⟨newTarget, hres, h⟩ := bind_eq_ok.mp h
    split at h
    · next hsame =>
        cases h
        obtain ⟨cur, hcur, rfl⟩ := Option.map_eq_some_iff.mp (eq_of_beq hsame)
        exact .inr (.inl ⟨⟨force, src, dst, cur, hspec, hres, hcur, rfl, rfl⟩⟩)
    · next hnew =>
        split at h
        · cases h
        · cases h
          exact .inl ⟨rfl, rfl⟩
        · next packBytes hpack =>
            obtain ⟨bundle, hpub, h⟩ := bind_eq_ok.mp h
            obtain ⟨target, ht, ⟨hadds⟩⟩ := addEntries_eq_ok h
            refine .inr (.inr ⟨⟨force, src, dst, newTarget, packBytes, bundle, target, hspec, hres, ?_,
              hpack, hpub, ht, hadds⟩⟩)
            intro heq
            exact hnew (by rw [isAlreadyUpToDate, heq, beq_self_eq_true])

/-- The number of the mirror mode in the state that was read, 0 if there is none. -/
def seenModeSeq (state : RepoState) : UInt64 :=
  ((state.extensions[mirrorModeExtensionKey]?).map (·.updateSeq)).getD 0

/-- The mirror mode is written: it was asked for, and it is not the one of the state. -/
structure WritesMode (cr : Crypto) (params : RepoParams) (key : SigningKey) (env : PushEnv)
    (state : RepoState) (acc acc' : PushAcc) where
  mode : String
  entry : ExtensionEntry
  mode_eq : env.mirrorMode = some mode
  known : mode = "snapshot" ∨ mode = "history"
  entry_eq : signExtension cr params key mirrorModeExtensionKey (utf8 mode)
    (seenModeSeq state + 1) = some entry
  acc_eq : acc' = { acc with delta := { acc.delta with
    extensions := acc.delta.extensions.insert mirrorModeExtensionKey entry } }

/-- **The mirror mode** is there if it is asked for, or it is written. -/
theorem pushMirrorMode_eq_ok (h : pushMirrorMode cr params key env state acc = .ok acc') :
    (acc' = acc ∧ ∀ mode, env.mirrorMode = some mode → mode ≠ "" →
        (state.extensions[mirrorModeExtensionKey]?).map (·.value) = some (utf8 mode)) ∨
      Nonempty (WritesMode cr params key env state acc acc') := by
  unfold pushMirrorMode at h
  split at h
  · next hmode =>
      cases h
      exact .inl ⟨rfl, fun mode hm => nomatch hmode.symm.trans hm⟩
  · next hmode =>
      cases h
      refine .inl ⟨rfl, fun mode hm hne => absurd ?_ hne⟩
      exact (Option.some.inj (hmode.symm.trans hm)).symm
  · next mode hempty hmode =>
      split at h
      · next hknown =>
          dsimp only at h
          split at h
          · obtain ⟨e, he, h⟩ := bind_eq_ok.mp h
            cases h
            exact .inr ⟨⟨mode, e, hmode, hknown, orPanic_eq_ok.mp he, rfl⟩⟩
          · next hsame =>
              cases h
              refine .inl ⟨rfl, fun mode' hm _ => ?_⟩
              cases hmode.symm.trans hm
              exact not_not.mp hsame
      · cases h

/-- What holds at first and is kept by every refspec holds at the end of the loop. -/
theorem pushSpecs_induction (Inv : PushAcc → Prop) {pushes : List String}
    (hspec : ∀ spec ∈ pushes, ∀ acc acc', Inv acc →
      pushSpec cr params key host env state acc spec = .ok acc' → Inv acc') (hacc : Inv acc)
    (h : pushes.foldlM (pushSpec cr params key host env state) acc = .ok acc') : Inv acc' := by
  induction pushes generalizing acc with
  | nil =>
      cases h
      exact hacc
  | cons spec l ih =>
      rw [List.foldlM_cons] at h
      obtain ⟨acc₁, h₁, h⟩ := bind_eq_ok.mp h
      exact ih (fun s hs => hspec s (List.mem_cons_of_mem _ hs))
        (hspec spec List.mem_cons_self acc acc₁ hacc h₁) h

/-- What holds of an empty delta and is kept by every refspec and by the mirror
mode holds of the delta of a push. -/
theorem buildDelta_induction (Inv : PushAcc → Prop) {pushes : List String}
    (h₀ : Inv ⟨RepoState.default, [], []⟩)
    (hspec : ∀ spec ∈ pushes, ∀ acc acc', Inv acc →
      pushSpec cr params key host env state acc spec = .ok acc' → Inv acc')
    (hmode : ∀ acc acc', Inv acc → pushMirrorMode cr params key env state acc = .ok acc' → Inv acc')
    (h : buildDelta cr params key host env state pushes = .ok acc) : Inv acc := by
  obtain ⟨acc₁, h₁, h⟩ := bind_eq_ok.mp h
  exact hmode _ _ (pushSpecs_induction Inv hspec h₀ h₁) h

/-- Every ref of the delta is reported as pushed. -/
def ReportsRefs (acc : PushAcc) : Prop :=
  ∀ (dst : RefName) (e : RefEntry), acc.delta.refs[dst]? = some e → "ok " ++ dst ∈ acc.okLines

theorem ReportsRefs.empty : ReportsRefs ⟨RepoState.default, [], []⟩ := fun _ _ he =>
  nomatch Std.ExtTreeMap.getElem?_empty.symm.trans he

theorem ReportsRefs.spec {spec : String} (h : ReportsRefs acc)
    (hs : pushSpec cr params key host env state acc spec = .ok acc') : ReportsRefs acc' := by
  intro dst e he
  rcases pushSpec_eq_ok hs with ⟨hd, hl⟩ | ⟨⟨u⟩⟩ | ⟨⟨p⟩⟩
  · exact hl ▸ h dst e (hd ▸ he)
  · rw [u.okLines_eq]
    exact List.mem_append_left _ (h dst e (u.delta_eq ▸ he))
  · rw [p.adds.okLines_eq]
    rw [p.adds.refs_eq, getElem?_insert_eq] at he
    split at he
    · next heq =>
        rw [heq]
        exact List.mem_append_right _ (List.mem_singleton_self _)
    · exact List.mem_append_left _ (h dst e he)

theorem ReportsRefs.mode (h : ReportsRefs acc)
    (hm : pushMirrorMode cr params key env state acc = .ok acc') : ReportsRefs acc' := by
  rcases pushMirrorMode_eq_ok hm with ⟨rfl, -⟩ | ⟨⟨w⟩⟩
  · exact h
  · rw [w.acc_eq]
    exact h

/-- **The refs of the delta** of a push are reported. -/
theorem buildDelta_okLines {pushes : List String}
    (h : buildDelta cr params key host env state pushes = .ok acc) : ReportsRefs acc :=
  buildDelta_induction ReportsRefs .empty (fun _ _ _ _ hacc => hacc.spec)
    (fun _ _ hacc => hacc.mode) h

/-- What `handle_push` sends is the delta it built. -/
theorem handlePush_eq_ok {pushes : List String} {sent : Option RepoState}
    (h : handlePush cr params key host env state pushes = .ok (sent, acc)) :
    buildDelta cr params key host env state pushes = .ok acc ∧
      ∀ d, sent = some d → d = acc.delta ∧ ∃ s', updateState cr params state d = .ok s' := by
  obtain ⟨acc₁, hb, h⟩ := bind_eq_ok.mp h
  split at h
  · cases h
    refine ⟨hb, fun d hd => ?_⟩
    cases hd
  · split at h
    · next s' hu =>
        cases h
        refine ⟨hb, fun d hd => ?_⟩
        cases hd
        exact ⟨rfl, s', hu⟩
    · cases h
    · cases h

/-- Below the last number, the next number is higher. -/
theorem lt_next {seq : UInt64} (h : seq.toNat + 1 < 2 ^ 64) : seq < seq + 1 := by
  rw [UInt64.lt_iff_toNat_lt, UInt64.toNat_add, UInt64.toNat_one, Nat.mod_eq_of_lt h]
  exact Nat.lt_succ_self _

/-- A ref with the next number takes its place. -/
theorem mergeState_next {delta : RepoState} {dst : RefName} {e : RefEntry}
    (he : delta.refs[dst]? = some e) (hseq : e.updateSeq = seenSeq state dst + 1)
    (hmax : (seenSeq state dst).toNat + 1 < 2 ^ 64) :
    (mergeState state delta).refs[dst]? = some e := by
  refine mergeState_higher (σ := .ref dst) he fun cur hcur => ?_
  have hseen : seenSeq state dst = cur.updateSeq := by
    rw [seenSeq, show state.refs[dst]? = some cur from hcur]
    rfl
  change cur.updateSeq < e.updateSeq
  rw [hseq, ← hseen]
  exact lt_next hmax

/-- The three entries of one pushed refspec. -/
def threeEntries (dst : RefName) (entry : RefEntry) (id : ObjectBundleId)
    (record : ObjectBundleRecord) (tip : ExtensionEntry) : RepoState :=
  { RepoState.default with
    refs := (∅ : BTreeMap RefName RefEntry).insert dst entry
    objectIndex := (∅ : BTreeMap ObjectBundleId ObjectBundleRecord).insert id record
    extensions := (∅ : BTreeMap String ExtensionEntry).insert (bundleTipExtensionKey id) tip }

/-- The report of a refspec, with its three entries in the delta. -/
def PushAcc.publish (acc : PushAcc) (dst : RefName) (entry : RefEntry) (id : ObjectBundleId)
    (record : ObjectBundleRecord) (tip : ExtensionEntry) : PushAcc :=
  { acc with
    delta := { acc.delta with
      refs := acc.delta.refs.insert dst entry
      objectIndex := acc.delta.objectIndex.insert id record
      extensions := acc.delta.extensions.insert (bundleTipExtensionKey id) tip }
    okLines := acc.okLines ++ ["ok " ++ dst] }

section

variable {spec src : String} {dst : RefName} {force : Bool} {c : CommitHash} {pack : Bytes}
  {bundle : ObjectBundle} {record : ObjectBundleRecord} {entry : RefEntry} {tip : ExtensionEntry}

/-- A refspec whose pack is built, published and signed for. -/
theorem pushSpec_publish (acc : PushAcc) (hspec : parsePushSpec spec = .ok (force, src, dst))
    (hsrc : src.isEmpty = false) (hresolve : host.resolveRef src = .ok (hexEncode c.toList))
    (hnew : isAlreadyUpToDate ((state.refs[dst]?).map fun e => hexEncode e.target.toList)
      (hexEncode c.toList) = false)
    (hpack : buildPack host ((state.refs[dst]?).map fun e => hexEncode e.target.toList)
      (hexEncode c.toList) force = .ok pack)
    (hpublish : publishBundle cr host env pack = .ok bundle)
    (hrecord : signBundleRecord cr params key bundle 0 = some record)
    (hentry : signRefEntry cr params key dst c (seenSeq state dst + 1) 0 = some entry)
    (htip : signExtension cr params key (bundleTipExtensionKey (bundle.id cr)) c.toList
      bundleTipUpdateSeq = some tip) :
    pushSpec cr params key host env state acc spec =
      .ok (acc.publish dst entry (bundle.id cr) record tip) := by
  have htip : signBundleTipExtension cr params key (bundle.id cr) c bundleTipUpdateSeq =
      some (bundleTipExtensionKey (bundle.id cr), tip) := by
    rw [signBundleTipExtension, htip, Option.map_some]
  have hadd : addEntries cr params key state dst (hexEncode c.toList) bundle acc =
      .ok (acc.publish dst entry (bundle.id cr) record tip) := by
    refine bind_eq_ok.mpr ⟨record, orPanic_eq_ok.mpr hrecord, ?_⟩
    refine bind_eq_ok.mpr ⟨c, parseSha1_hexEncode c, ?_⟩
    refine bind_eq_ok.mpr ⟨entry, orPanic_eq_ok.mpr hentry, ?_⟩
    exact bind_eq_ok.mpr ⟨_, orPanic_eq_ok.mpr htip, rfl⟩
  refine bind_eq_ok.mpr ⟨(force, src, dst), hspec, ?_⟩
  dsimp only
  rw [hsrc]
  refine bind_eq_ok.mpr ⟨hexEncode c.toList, hresolve, ?_⟩
  rw [hnew, hpack]
  exact bind_eq_ok.mpr ⟨bundle, hpublish, hadd⟩

/-- The delta of a push with one refspec, whose pack is built, published and signed for. -/
theorem buildDelta_one (hspec : parsePushSpec spec = .ok (force, src, dst))
    (hsrc : src.isEmpty = false) (hresolve : host.resolveRef src = .ok (hexEncode c.toList))
    (hnew : isAlreadyUpToDate ((state.refs[dst]?).map fun e => hexEncode e.target.toList)
      (hexEncode c.toList) = false)
    (hpack : buildPack host ((state.refs[dst]?).map fun e => hexEncode e.target.toList)
      (hexEncode c.toList) force = .ok pack)
    (hpublish : publishBundle cr host env pack = .ok bundle)
    (hrecord : signBundleRecord cr params key bundle 0 = some record)
    (hentry : signRefEntry cr params key dst c (seenSeq state dst + 1) 0 = some entry)
    (htip : signExtension cr params key (bundleTipExtensionKey (bundle.id cr)) c.toList
      bundleTipUpdateSeq = some tip) (hmode : env.mirrorMode = none) :
    buildDelta cr params key host env state [spec] =
      .ok ⟨threeEntries dst entry (bundle.id cr) record tip, ["ok " ++ dst], []⟩ := by
  have hpush := pushSpec_publish ⟨RepoState.default, [], []⟩ hspec hsrc hresolve hnew hpack hpublish
    hrecord hentry htip
  refine bind_eq_ok.mpr ⟨_, by rw [List.foldlM_cons, hpush]; rfl, ?_⟩
  rw [pushMirrorMode, hmode]
  rfl

end

/-- What a push built is sent, if the merge accepts it and it has a ref. -/
theorem handlePush_of_updateState {pushes : List String} {s' : RepoState} {n : RefName} {e : RefEntry}
    (hb : buildDelta cr params key host env state pushes = .ok acc)
    (hne : acc.delta.refs[n]? = some e) (hu : updateState cr params state acc.delta = .ok s') :
    handlePush cr params key host env state pushes = .ok (some acc.delta, acc) := by
  refine bind_eq_ok.mpr ⟨acc, hb, ?_⟩
  have hrefs : ¬ acc.delta.refs.isEmpty = true := fun h => by
    rw [Std.ExtTreeMap.isEmpty_iff.mp h, Std.ExtTreeMap.getElem?_empty] at hne
    cases hne
  rw [if_neg fun h => hrefs h.2.1, hu]

end

end FreenetGit
