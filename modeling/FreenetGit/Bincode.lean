/-
# `FreenetGit.Bincode` — the wire format of parameters, states and summaries

`bincode` writes the fields of a structure in order, in the fixed-width
little-endian format of `Lib.Codec`.  Reading ignores what follows the value.
The empty byte string stands for the default state.
-/
import FreenetGit.Lib.Codec
import FreenetGit.Sync

namespace FreenetGit

open Lib

namespace bincode

def signedField {T : Type} (A : Codec T) : Codec (SignedField T) :=
  (A.pair (Codec.u64.pair (.arrayBlob 64))).imap (fun f => (f.value, f.updateSeq, f.signature))
    (fun p => some ⟨p.1, p.2.1, p.2.2⟩) fun _ => rfl

def writerGrant : Codec WriterGrant :=
  (Codec.u64.pair (.option .u64)).imap (fun g => (g.grantedAtEpoch, g.revokedAtEpoch))
    (fun p => some ⟨p.1, p.2⟩) fun _ => rfl

def aclState : Codec AclState :=
  (Codec.u64.pair (.map (.array 32) writerGrant)).imap (fun a => (a.epoch, a.grants))
    (fun p => some ⟨p.1, p.2⟩) fun _ => rfl

def refEntry : Codec RefEntry :=
  ((Codec.array 20).pair (Codec.u64.pair ((Codec.array 32).pair
    (Codec.u64.pair (.arrayBlob 64))))).imap
    (fun e => (e.target, e.updateSeq, e.updater, e.authEpoch, e.signature))
    (fun p => some ⟨p.1, p.2.1, p.2.2.1, p.2.2.2.1, p.2.2.2.2⟩) fun _ => rfl

def objectBundle : Codec ObjectBundle :=
  (Codec.variant ((Codec.array 32).pair .u64) ((Codec.array 32).pair (Codec.u64.pair .u32))).imap
    (fun
      | .singlePack h n => .inl (h, n)
      | .chunkedPack h t c => .inr (h, t, c))
    (fun
      | .inl p => some (.singlePack p.1 p.2)
      | .inr p => some (.chunkedPack p.1 p.2.1 p.2.2))
    fun b => by cases b <;> rfl

def objectBundleRecord : Codec ObjectBundleRecord :=
  (objectBundle.pair ((Codec.array 32).pair (Codec.u64.pair (.arrayBlob 64)))).imap
    (fun r => (r.bundle, r.addedBy, r.authEpoch, r.signature))
    (fun p => some ⟨p.1, p.2.1, p.2.2.1, p.2.2.2⟩) fun _ => rfl

def extensionEntry : Codec ExtensionEntry :=
  (Codec.blob.pair (Codec.u64.pair (.arrayBlob 64))).imap
    (fun e => (e.value, e.updateSeq, e.signature))
    (fun p => some ⟨p.1, p.2.1, p.2.2⟩) fun _ => rfl

def repoParams : Codec RepoParams :=
  Codec.string.imap (·.prefixStr) (fun s => some ⟨s⟩) fun _ => rfl

def repoState : Codec RepoState :=
  ((Codec.array 32).pair
    ((Codec.option (signedField .string)).pair
    ((Codec.option (signedField .string)).pair
    ((Codec.option (signedField .string)).pair
    ((Codec.option (signedField (.list .string))).pair
    ((Codec.option (signedField aclState)).pair
    ((Codec.option (signedField (.option (.array 32)))).pair
    ((Codec.map .string refEntry).pair
    ((Codec.map (.array 32) objectBundleRecord).pair
    (.map .string extensionEntry)))))))))).imap
    (fun s => (s.owner, s.name, s.description, s.defaultBranch, s.forcePushAllowed, s.acl,
      s.upgrade, s.refs, s.objectIndex, s.extensions))
    (fun p => some ⟨p.1, p.2.1, p.2.2.1, p.2.2.2.1, p.2.2.2.2.1, p.2.2.2.2.2.1, p.2.2.2.2.2.2.1,
      p.2.2.2.2.2.2.2.1, p.2.2.2.2.2.2.2.2.1, p.2.2.2.2.2.2.2.2.2⟩)
    fun _ => rfl

def repoSummary : Codec RepoSummary :=
  ((Codec.map .string .u64).pair ((Codec.map .string .u64).pair
    ((Codec.list (.array 32)).pair (.map .string .u64)))).imap
    (fun s => (s.fieldSeqs, s.refSeqs, s.bundleIds, s.extensionSeqs))
    (fun p => some ⟨p.1, p.2.1, p.2.2.1, p.2.2.2⟩) fun _ => rfl

end bincode

/-- `RepoParams::to_bytes`; a prefix too long for the format has no bytes. -/
def RepoParams.toBytes (p : RepoParams) : Option Bytes := bincode.repoParams.enc p

/-- `RepoParams::from_bytes`. -/
def RepoParams.fromBytes (cr : Crypto) (bytes : Bytes) : Except ValidateError RepoParams :=
  match bincode.repoParams.read bytes with
  | none => .error (.decodeParams (cr.bincodeError bytes))
  | some p => .ok p

/-- `RepoState::to_bytes`; a state too large for the format has no bytes. -/
def RepoState.toBytes (s : RepoState) : Option Bytes := bincode.repoState.enc s

/-- `RepoState::from_bytes`. -/
def RepoState.fromBytes (cr : Crypto) (bytes : Bytes) : Except ValidateError RepoState :=
  if bytes.isEmpty then .ok RepoState.default
  else
    match bincode.repoState.read bytes with
    | none => .error (.decodeState (cr.bincodeError bytes))
    | some s => .ok s

/-- An encoded state is longer than the owner's key, hence not empty. -/
theorem RepoState.toBytes_ne_nil {s : RepoState} {bs : Bytes} (h : s.toBytes = some bs) :
    bs ≠ [] := by
  simp only [RepoState.toBytes, bincode.repoState, Codec.imap, Codec.pair,
    Option.bind_eq_some_iff, Option.map_eq_some_iff] at h
  obtain ⟨x, hx, y, -, rfl⟩ := h
  intro he
  have hx : s.owner.toList = x := Option.some.inj hx
  have := congrArg List.length (List.append_eq_nil_iff.mp he).1
  rw [← hx, Vector.length_toList] at this
  cases this

/-- **States survive the wire.** -/
theorem RepoState.fromBytes_toBytes {cr : Crypto} {s : RepoState} {bs : Bytes}
    (h : s.toBytes = some bs) : RepoState.fromBytes cr bs = .ok s := by
  have hne : bs.isEmpty = false := by
    rw [List.isEmpty_eq_false_iff]
    exact toBytes_ne_nil h
  rw [fromBytes, hne, bincode.repoState.read_enc h]
  rfl

end FreenetGit
