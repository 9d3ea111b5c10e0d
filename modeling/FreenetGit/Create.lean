/-
# `FreenetGit.Create` — creating repositories side by side

`create_repo` opens the bundle, publishes the contract of a new key, and only then adds
the key to the bundle it opened at first, writes the whole bundle to a temporary file of
a fixed name, and renames that.  Any number of creates may run at once and each may fail
at any step (`CreateStep`).  A key is lost when a create fails after the host has
confirmed its contract, when two creates write the temporary file together, or when a
create puts back a bundle that was replaced since; otherwise it never is (`create_keeps`).
-/
import FreenetGit.Identity
import FreenetGit.Lib.Files
import FreenetGit.Lib.Run
import FreenetGit.Sample

namespace FreenetGit

open Lib

/-! ## Opening the bundle -/

/-- `FREENET_GIT_PASSPHRASE`, and what the user types when asked. -/
structure PassphraseEnv where
  passphrase : Option String
  prompt : Except String String

section

variable (bc : BundleCrypto) (path : String)

/-- The part of `open_bundle_remembering_passphrase` after the passphrase of the
environment: the empty one, then the one that is typed. -/
def openBundlePrompting (bytes : Bytes) (env : PassphraseEnv) :
    Outcome (List String) (DecryptedBundle × String) :=
  match openBundle bc bytes "" with
  | .ok bundle => .ok (bundle, "")
  | .error .panicked => .error .panicked
  | .error (.err _) =>
      if env.passphrase.isSome then
        .error (.err ["FREENET_GIT_PASSPHRASE was set but did not decrypt bundle at " ++ path ++
          " (and the bundle is not unencrypted either)"])
      else
        match env.prompt with
        | .error e => .error (.err [e])
        | .ok pw =>
            if pw.isEmpty then .error (.err ["empty passphrase"])
            else
              match openBundle bc bytes pw with
              | .ok bundle => .ok (bundle, pw)
              | .error .panicked => .error .panicked
              | .error (.err e) => .error (.err ["decrypt bundle at " ++ path, e.display])

/-- `open_bundle_remembering_passphrase`. -/
def openBundleRememberingPassphrase (file : Option Bytes) (env : PassphraseEnv) :
    Outcome (List String) (DecryptedBundle × String) :=
  match file, env.passphrase with
  | none, _ =>
      .error (.err ["no identity bundle at " ++ path ++ " -- run `freenet-git init-identity` first"])
  | some bytes, none => openBundlePrompting bc path bytes env
  | some bytes, some pw =>
      match openBundle bc bytes pw with
      | .ok bundle => .ok (bundle, pw)
      | .error .panicked => .error .panicked
      | .error (.err _) => openBundlePrompting bc path bytes env

end

/-! ## The system -/

/-- The bundle, and the fixed name of `write_atomic` beside it. -/
inductive BundleFile where
  | bundle
  | tmp
deriving DecidableEq

/-- The key pair that a create draws. -/
structure RepoKeys where
  secret : Vector UInt8 32
  publicKey : PublicKey

/-- `limits::DEFAULT_PREFIX_LEN`. -/
def limits.defaultPrefixLen : Nat := 12

/-- The registry entry of `register_in_bundle`. -/
def registryEntry (cr : Crypto) (keys : RepoKeys) (name : String) : RepoRegistryEntry where
  repoSecret := keys.secret.toList
  repoPublic := keys.publicKey.toList
  prefixStr := pubkeyPrefix cr keys.publicKey limits.defaultPrefixLen
  displayName := name

def DecryptedBundle.register (bundle : DecryptedBundle) (entry : RepoRegistryEntry) :
    DecryptedBundle :=
  { bundle with repos := bundle.repos ++ [entry] }

/-- Where a create is, with what it holds in memory. -/
inductive CreateRun where
  | start
  | opened (bundle : DecryptedBundle) (passphrase : String)
  | putting (bundle : DecryptedBundle) (passphrase : String) (entry : RepoRegistryEntry)
  | registering (bundle : DecryptedBundle) (passphrase : String) (entry : RepoRegistryEntry)
  | writing (bundle : DecryptedBundle) (entry : RepoRegistryEntry) (bytes : Bytes)
      (fd written : Nat)
  | finished
  | failed

namespace CreateRun

/-- The entry that a running create still holds. -/
def held : CreateRun → Option RepoRegistryEntry
  | putting _ _ entry | registering _ _ entry | writing _ entry _ _ _ => some entry
  | _ => none

/-- The temporary file that a running create has open. -/
def openFile : CreateRun → Option Nat
  | writing _ _ _ fd _ => some fd
  | _ => none

end CreateRun

/-- The files, the creates, and what the host has: the contract of each create, named by
its registry entry, and whether its PUT is confirmed. -/
structure CreateState where
  files : Files BundleFile
  run : Nat → CreateRun
  published : Nat → Option RepoRegistryEntry
  confirmed : Nat → Bool

namespace CreateState

def setRun (s : CreateState) (r : Nat) (run : CreateRun) : CreateState :=
  { s with run := Function.update s.run r run }

def setFiles (s : CreateState) (files : Files BundleFile) : CreateState := { s with files := files }

def publish (s : CreateState) (r : Nat) (entry : RepoRegistryEntry) : CreateState :=
  { s with published := Function.update s.published r (some entry) }

def confirm (s : CreateState) (r : Nat) : CreateState :=
  { s with confirmed := Function.update s.confirmed r true }

variable {s : CreateState} {q r : Nat} {run : CreateRun} {entry : RepoRegistryEntry}

@[simp] theorem run_setRun_self : (s.setRun r run).run r = run := Function.update_self ..

theorem run_setRun_of_ne (h : q ≠ r) : (s.setRun r run).run q = s.run q :=
  Function.update_of_ne h ..

@[simp] theorem published_publish_self : (s.publish r entry).published r = some entry :=
  Function.update_self ..

theorem published_publish_of_ne (h : q ≠ r) : (s.publish r entry).published q = s.published q :=
  Function.update_of_ne h ..

end CreateState

inductive CreateEvent where
  | read (r : Nat) (env : PassphraseEnv)
  | put (r : Nat) (keys : RepoKeys) (name : String)
  | handOff (r : Nat) (keys : RepoKeys) (name : String)
  | hostConfirms (r : Nat)
  | confirmed (r : Nat)
  | openTmp (r : Nat) (salt : Vector UInt8 16) (nonce : Vector UInt8 24)
  | write (r : Nat) (n : Nat)
  | rename (r : Nat)
  | fail (r : Nat)

section

variable (bc : BundleCrypto) (cr : Crypto) (path : String)

/-- One step of a create, or of the host. -/
inductive CreateStep : CreateState → CreateEvent → CreateState → Prop
  | read {s r env bundle passphrase} (hrun : s.run r = .start)
      (hopen : openBundleRememberingPassphrase bc path (s.files.read .bundle) env =
        .ok (bundle, passphrase)) :
      CreateStep s (.read r env) (s.setRun r (.opened bundle passphrase))
  | put {s r bundle passphrase keys name} (hrun : s.run r = .opened bundle passphrase) :
      CreateStep s (.put r keys name)
        ((s.publish r (registryEntry cr keys name)).setRun r
          (.putting bundle passphrase (registryEntry cr keys name)))
  /-- `--no-publish`: the contract is left in files, for anyone to PUT. -/
  | handOff {s r bundle passphrase keys name} (hrun : s.run r = .opened bundle passphrase) :
      CreateStep s (.handOff r keys name)
        ((s.publish r (registryEntry cr keys name)).setRun r
          (.registering bundle passphrase (registryEntry cr keys name)))
  /-- The host may confirm a PUT at any time, also after the create gave up waiting. -/
  | hostConfirms {s r entry} (hput : s.published r = some entry) :
      CreateStep s (.hostConfirms r) (s.confirm r)
  | confirmed {s r bundle passphrase entry} (hrun : s.run r = .putting bundle passphrase entry)
      (hconfirmed : s.confirmed r = true) :
      CreateStep s (.confirmed r) (s.setRun r (.registering bundle passphrase entry))
  | openTmp {s r bundle passphrase entry salt nonce bytes}
      (hrun : s.run r = .registering bundle passphrase entry)
      (hseal : sealBundle bc (bundle.register entry) passphrase salt nonce = .ok bytes) :
      CreateStep s (.openTmp r salt nonce)
        ((s.setFiles (s.files.openTruncate .tmp)).setRun r
          (.writing bundle entry bytes (s.files.opened .tmp) 0))
  /-- `write_all` may write in parts. -/
  | write {s r bundle entry bytes fd k n} (hrun : s.run r = .writing bundle entry bytes fd k) :
      CreateStep s (.write r n)
        ((s.setFiles (s.files.write fd k ((bytes.drop k).take n))).setRun r
          (.writing bundle entry bytes fd (min (k + n) bytes.length)))
  | rename {s r bundle entry bytes fd files}
      (hrun : s.run r = .writing bundle entry bytes fd bytes.length)
      (hrename : s.files.rename .tmp .bundle = some files) :
      CreateStep s (.rename r) ((s.setFiles files).setRun r .finished)
  | fail {s r} (hrun : s.run r ≠ .finished) : CreateStep s (.fail r) (s.setRun r .failed)

/-- The bundle file opens to the bundle. -/
def InFile (s : CreateState) (bundle : DecryptedBundle) : Prop :=
  ∃ bytes passphrase, s.files.read .bundle = some bytes ∧
    openBundle bc bytes passphrase = .ok bundle

/-- The bundle file holds the entry. -/
def Holds (s : CreateState) (entry : RepoRegistryEntry) : Prop :=
  ∃ bundle, InFile bc s bundle ∧ entry ∈ bundle.repos

/-- **The key of a confirmed contract** is in the bundle file or in a running create. -/
def KeysKept (s : CreateState) : Prop :=
  ∀ r entry, s.published r = some entry → s.confirmed r = true →
    Holds bc s entry ∨ (s.run r).held = some entry

/-- No create fails whose contract is confirmed or will be; the temporary file is opened
by one create at a time; and the bundle file is replaced by the create that read it. -/
def Careful (t : Transition CreateState CreateEvent) : Prop :=
  match t.event with
  | .hostConfirms r => t.before.run r ≠ .failed
  | .fail r => t.before.confirmed r = false
  | .openTmp _ _ _ => ∀ q, (t.before.run q).openFile = none
  | .rename r => ∀ bundle entry bytes fd k, t.before.run r = .writing bundle entry bytes fd k →
      InFile bc t.before bundle
  | _ => True

/-- No create has started, and the bundle file is a sealed bundle; a temporary file may be
left over. -/
structure CreateState.Initial (s : CreateState) : Prop where
  file : ∃ bytes bundle passphrase salt nonce, s.files.read .bundle = some bytes ∧
    sealBundle bc bundle passphrase salt nonce = .ok bytes
  apart : s.files.Apart .tmp .bundle
  run : ∀ r, s.run r = .start
  published : ∀ r, s.published r = none

end

/-! ## The invariant -/

section

variable {bc : BundleCrypto} {cr : Crypto} {path : String} {s s' : CreateState} {e : CreateEvent}
  {r : Nat}

/-- Where the key of a create is. -/
def Kept (bc : BundleCrypto) (s : CreateState) (r : Nat) (entry : RepoRegistryEntry) : Prop :=
  (s.run r).held = some entry ∨ (s.run r = .finished ∧ Holds bc s entry) ∨
    (s.run r = .failed ∧ s.confirmed r = false)

/-- The bundle file is a sealed bundle, the temporary file is the one that the only
writing create has open, and each published key has its place. -/
structure CreateInv (bc : BundleCrypto) (s : CreateState) : Prop where
  file : ∃ bytes bundle passphrase salt nonce, s.files.read .bundle = some bytes ∧
    Nonempty (Sealed bc bundle passphrase salt nonce bytes)
  apart : s.files.Apart .tmp .bundle
  writing : ∀ r bundle entry bytes fd k, s.run r = .writing bundle entry bytes fd k →
    s.files.inode .tmp = some fd ∧ s.files.content fd = bytes.take k ∧ k ≤ bytes.length ∧
      ∃ passphrase salt nonce,
        Nonempty (Sealed bc (bundle.register entry) passphrase salt nonce bytes)
  single : ∀ q r, (s.run q).openFile ≠ none → (s.run r).openFile ≠ none → q = r
  kept : ∀ r entry, s.published r = some entry → Kept bc s r entry

theorem CreateState.Initial.inv (h : s.Initial bc) : CreateInv bc s where
  file := by
    obtain ⟨bytes, bundle, passphrase, salt, nonce, hread, hseal⟩ := h.file
    exact ⟨bytes, bundle, passphrase, salt, nonce, hread, sealBundle_eq_ok hseal⟩
  apart := h.apart
  writing r bundle entry bytes fd k hrun := by
    rw [h.run] at hrun
    cases hrun
  single q r hq := by
    rw [h.run] at hq
    exact absurd rfl hq
  kept r entry hput := by
    rw [h.published] at hput
    cases hput

/-- The file opens to one bundle only. -/
theorem CreateInv.inFile_unique (hinv : CreateInv bc s) (ideal : IdealAead bc)
    {bundle bundle' : DecryptedBundle} (h : InFile bc s bundle) (h' : InFile bc s bundle') :
    bundle = bundle' := by
  obtain ⟨bytes, _, _, _, _, hread, ⟨hsealed⟩⟩ := hinv.file
  obtain ⟨bytes₁, _, hread₁, hopen₁⟩ := h
  obtain ⟨bytes₂, _, hread₂, hopen₂⟩ := h'
  cases hread.symm.trans hread₁
  cases hread.symm.trans hread₂
  rw [hsealed.opens_only ideal hopen₁, hsealed.opens_only ideal hopen₂]

/-- What the bundle file holds depends on its content only. -/
theorem inFile_congr (h : s'.files.read .bundle = s.files.read .bundle) {bundle : DecryptedBundle} :
    InFile bc s' bundle ↔ InFile bc s bundle := by
  rw [InFile, InFile, h]

theorem holds_congr (h : s'.files.read .bundle = s.files.read .bundle) {entry : RepoRegistryEntry} :
    Holds bc s' entry ↔ Holds bc s entry :=
  exists_congr fun _ => and_congr_left fun _ => inFile_congr h

/-- A create that moved leaves the keys of the others where they are. -/
theorem Kept.of_other {q : Nat} {entry : RepoRegistryEntry} (h : Kept bc s q entry)
    (hrun : s'.run q = s.run q) (hconfirmed : s'.confirmed q = s.confirmed q)
    (hholds : Holds bc s entry → Holds bc s' entry) : Kept bc s' q entry := by
  rw [Kept, hrun, hconfirmed]
  exact h.imp id (Or.imp (And.imp_right hholds) id)

/-- A step of one create that does not touch the files. -/
theorem CreateInv.of_local (hinv : CreateInv bc s) (hfiles : s'.files = s.files)
    (hother : ∀ q, q ≠ r → s'.run q = s.run q ∧ s'.published q = s.published q ∧
      s'.confirmed q = s.confirmed q)
    (hfd : (s'.run r).openFile = none)
    (hkept : ∀ entry, s'.published r = some entry → Kept bc s' r entry) : CreateInv bc s' where
  file := hfiles ▸ hinv.file
  apart := hfiles ▸ hinv.apart
  writing q bundle entry bytes fd k hq := by
    by_cases hqr : q = r
    · rw [← hqr, hq] at hfd
      cases hfd
    · rw [(hother q hqr).1] at hq
      rw [hfiles]
      exact hinv.writing q bundle entry bytes fd k hq
  single p q hp hq := by
    have hne : ∀ {q}, (s'.run q).openFile ≠ none → q ≠ r := fun h hqr => h (hqr ▸ hfd)
    rw [(hother p (hne hp)).1] at hp
    rw [(hother q (hne hq)).1] at hq
    exact hinv.single p q hp hq
  kept q entry hput := by
    by_cases hqr : q = r
    · subst hqr
      exact hkept entry hput
    · obtain ⟨hrun, hpublished, hconfirmed⟩ := hother q hqr
      rw [hpublished] at hput
      exact (hinv.kept q entry hput).of_other hrun hconfirmed (holds_congr (by rw [hfiles])).mpr

/-- A step of the only create that writes the temporary file. -/
theorem CreateInv.of_writing {bundle : DecryptedBundle} {entry : RepoRegistryEntry} {bytes : Bytes}
    {fd k : Nat} (hinv : CreateInv bc s) (hread : s'.files.read .bundle = s.files.read .bundle)
    (hapart : s'.files.Apart .tmp .bundle) (hother : ∀ q, q ≠ r → s'.run q = s.run q)
    (hsame : s'.published = s.published ∧ s'.confirmed = s.confirmed)
    (hnone : ∀ q, q ≠ r → (s.run q).openFile = none) (hentry : (s.run r).held = some entry)
    (hrun : s'.run r = .writing bundle entry bytes fd k) (htmp : s'.files.inode .tmp = some fd)
    (hcontent : s'.files.content fd = bytes.take k) (hk : k ≤ bytes.length)
    (hseal : ∃ passphrase salt nonce,
      Nonempty (Sealed bc (bundle.register entry) passphrase salt nonce bytes)) :
    CreateInv bc s' where
  file := hread ▸ hinv.file
  apart := hapart
  writing q bundle' entry' bytes' fd' k' hq := by
    by_cases hqr : q = r
    · rw [hqr, hrun] at hq
      cases hq
      exact ⟨htmp, hcontent, hk, hseal⟩
    · have hfd := hnone q hqr
      rw [← hother q hqr, hq] at hfd
      cases hfd
  single p q hp hq := by
    have heq : ∀ {q}, (s'.run q).openFile ≠ none → q = r := fun {q} h => by
      by_contra hqr
      exact h (hother q hqr ▸ hnone q hqr)
    rw [heq hp, heq hq]
  kept q x hput := by
    rw [hsame.1] at hput
    have h := hinv.kept q x hput
    by_cases hqr : q = r
    · subst hqr
      refine .inl ?_
      rw [hrun]
      rcases h with h | ⟨h, -⟩ | ⟨h, -⟩
      · rw [hentry] at h
        exact h
      · rw [h] at hentry
        cases hentry
      · rw [h] at hentry
        cases hentry
    · exact h.of_other (hother q hqr) (congrFun hsame.2 q) (holds_congr hread).mpr

/-- A key that a running create holds is the one it published. -/
theorem Kept.entry_eq {entry x : RepoRegistryEntry} (h : Kept bc s r x)
    (hentry : (s.run r).held = some entry) : x = entry := by
  rcases h with h | ⟨h, -⟩ | ⟨h, -⟩
  · rw [hentry] at h
    exact (Option.some.inj h).symm
  · rw [h] at hentry
    cases hentry
  · rw [h] at hentry
    cases hentry

/-- The renamed file is the bundle, which keeps what the file held and gets the entry. -/
theorem CreateInv.rename {bundle : DecryptedBundle} {entry : RepoRegistryEntry} {bytes : Bytes}
    {fd : Nat} {files : Files BundleFile} (hinv : CreateInv bc s) (ideal : IdealAead bc)
    (hrun : s.run r = .writing bundle entry bytes fd bytes.length)
    (hrename : s.files.rename .tmp .bundle = some files) (hfile : InFile bc s bundle) :
    CreateInv bc ((s.setFiles files).setRun r .finished) ∧
      ∀ x, Holds bc s x → Holds bc ((s.setFiles files).setRun r .finished) x := by
  obtain ⟨htmp, hcontent, -, passphrase, salt, nonce, ⟨hsealed⟩⟩ :=
    hinv.writing r bundle entry bytes fd bytes.length hrun
  obtain ⟨hread, hapart⟩ := Files.read_rename hinv.apart.1 htmp hrename
  rw [hcontent, List.take_length] at hread
  have hnew : ∀ x ∈ (bundle.register entry).repos,
      Holds bc ((s.setFiles files).setRun r .finished) x := fun x hx =>
    ⟨bundle.register entry, ⟨bytes, passphrase, hread, hsealed.opens ideal⟩, hx⟩
  have hmono : ∀ x, Holds bc s x → Holds bc ((s.setFiles files).setRun r .finished) x := by
    rintro x ⟨bundle', hfile', hx⟩
    rw [hinv.inFile_unique ideal hfile' hfile] at hx
    exact hnew x (List.mem_append_left _ hx)
  have hother : ∀ q, q ≠ r → ((s.setFiles files).setRun r .finished).run q = s.run q :=
    fun q hq => CreateState.run_setRun_of_ne hq
  have hnone : ∀ q, (((s.setFiles files).setRun r .finished).run q).openFile = none := by
    intro q
    by_cases hqr : q = r
    · rw [hqr, CreateState.run_setRun_self]
      rfl
    · rw [hother q hqr]
      by_contra hq
      exact hqr (hinv.single q r hq (by rw [hrun]; nofun))
  refine ⟨⟨⟨bytes, _, _, _, _, hread, ⟨hsealed⟩⟩, hapart, ?_, ?_, ?_⟩, hmono⟩
  · intro q bundle' entry' bytes' fd' k hq
    have h := hnone q
    rw [hq] at h
    cases h
  · exact fun p q hp => absurd (hnone p) hp
  · intro q x hput
    have h := hinv.kept q x hput
    by_cases hqr : q = r
    · subst hqr
      have hx : x = entry := h.entry_eq (by rw [hrun]; rfl)
      exact .inr (.inl ⟨CreateState.run_setRun_self,
        hnew x (hx ▸ List.mem_append_right _ (List.mem_singleton_self _))⟩)
    · exact h.of_other (hother q hqr) rfl (hmono x)

/-- **One step** that meets the condition keeps the invariant, and removes no entry. -/
theorem CreateInv.step (hinv : CreateInv bc s) (ideal : IdealAead bc)
    (hstep : CreateStep bc cr path s e s') (hcareful : Careful bc ⟨s, e, s'⟩) :
    CreateInv bc s' ∧ ∀ entry, Holds bc s entry → Holds bc s' entry := by
  have hothers : ∀ {r q : Nat} {run : CreateRun} {entry : RepoRegistryEntry}, q ≠ r →
      ((s.publish r entry).setRun r run).run q = s.run q ∧
      ((s.publish r entry).setRun r run).published q = s.published q ∧
      ((s.publish r entry).setRun r run).confirmed q = s.confirmed q := fun hq =>
    ⟨CreateState.run_setRun_of_ne hq, CreateState.published_publish_of_ne hq, rfl⟩
  cases hstep with
  | @read r env bundle passphrase hrun hopen =>
      refine ⟨hinv.of_local (r := r) rfl (fun q hq => ⟨CreateState.run_setRun_of_ne hq, rfl, rfl⟩)
        (by rw [CreateState.run_setRun_self]; rfl) fun x hput => ?_, fun _ h => h⟩
      rcases hinv.kept r x hput with h | ⟨h, -⟩ | ⟨h, -⟩ <;>
      · rw [hrun] at h
        cases h
  | @put r bundle passphrase keys name hrun =>
      refine ⟨hinv.of_local (r := r) rfl (fun q => hothers)
        (by rw [CreateState.run_setRun_self]; rfl) fun x hput => .inl ?_, fun _ h => h⟩
      rw [CreateState.run_setRun_self]
      exact CreateState.published_publish_self.symm.trans hput
  | @handOff r bundle passphrase keys name hrun =>
      refine ⟨hinv.of_local (r := r) rfl (fun q => hothers)
        (by rw [CreateState.run_setRun_self]; rfl) fun x hput => .inl ?_, fun _ h => h⟩
      rw [CreateState.run_setRun_self]
      exact CreateState.published_publish_self.symm.trans hput
  | @hostConfirms r entry hput =>
      refine ⟨⟨hinv.file, hinv.apart, hinv.writing, hinv.single, fun q x hq => ?_⟩, fun _ h => h⟩
      have h := hinv.kept q x hq
      by_cases hqr : q = r
      · subst hqr
        refine h.imp id (Or.imp id fun ⟨hfailed, _⟩ => absurd hfailed hcareful)
      · exact h.of_other rfl (Function.update_of_ne hqr _ _) id
  | @confirmed r bundle passphrase entry hrun hconfirmed =>
      refine ⟨hinv.of_local (r := r) rfl (fun q hq => ⟨CreateState.run_setRun_of_ne hq, rfl, rfl⟩)
        (by rw [CreateState.run_setRun_self]; rfl) fun x hput => .inl ?_, fun _ h => h⟩
      have hx : x = entry := (hinv.kept r x hput).entry_eq (by rw [hrun]; rfl)
      rw [CreateState.run_setRun_self, hx]
      rfl
  | @openTmp r bundle passphrase entry salt nonce bytes hrun hseal =>
      have hread : (s.files.openTruncate .tmp).read .bundle = s.files.read .bundle :=
        Files.read_openTruncate hinv.apart
      refine ⟨hinv.of_writing (r := r) (k := 0) hread hinv.apart.openTruncate
        (fun q => CreateState.run_setRun_of_ne) ⟨rfl, rfl⟩ (fun q _ => hcareful q) (by rw [hrun]; rfl)
        CreateState.run_setRun_self Files.inode_openTruncate_self Files.content_openTruncate
        (Nat.zero_le _) ⟨passphrase, salt, nonce, sealBundle_eq_ok hseal⟩, fun x => ?_⟩
      exact (holds_congr hread).mpr
  | @write r bundle entry bytes fd k n hrun =>
      obtain ⟨htmp, hcontent, hk, hseal⟩ := hinv.writing r bundle entry bytes fd k hrun
      have hread : (s.files.write fd k ((bytes.drop k).take n)).read .bundle =
          s.files.read .bundle := Files.read_write (hinv.apart.2 fd htmp) k _
      have hwritten : (s.files.write fd k ((bytes.drop k).take n)).content fd =
          bytes.take (min (k + n) bytes.length) := by
        rw [Files.content_write, hcontent, overwrite_take hk, List.take_eq_take_min]
      have hnone : ∀ q, q ≠ r → (s.run q).openFile = none := by
        intro q hqr
        by_contra hq
        exact hqr (hinv.single q r hq (by rw [hrun]; nofun))
      refine ⟨hinv.of_writing (r := r) hread hinv.apart
        (fun q => CreateState.run_setRun_of_ne) ⟨rfl, rfl⟩ hnone (by rw [hrun]; rfl)
        CreateState.run_setRun_self htmp hwritten (Nat.min_le_right _ _) hseal, fun x => ?_⟩
      exact (holds_congr hread).mpr
  | @rename r bundle entry bytes fd files hrun hrename =>
      exact hinv.rename ideal hrun hrename (hcareful _ _ _ _ _ hrun)
  | @fail r hrun =>
      refine ⟨hinv.of_local (r := r) rfl (fun q hq => ⟨CreateState.run_setRun_of_ne hq, rfl, rfl⟩)
        (by rw [CreateState.run_setRun_self]; rfl) fun x hput => .inr (.inr ?_), fun _ h => h⟩
      exact ⟨CreateState.run_setRun_self, hcareful⟩

/-- The invariant says where the key of a confirmed contract is. -/
theorem CreateInv.keysKept (hinv : CreateInv bc s) : KeysKept bc s := by
  intro r entry hput hconfirmed
  rcases hinv.kept r entry hput with h | ⟨-, h⟩ | ⟨-, h⟩
  · exact .inr h
  · exact .inl h
  · rw [hconfirmed] at h
    cases h

/-- **A run keeps the invariant**, and no step of it removes an entry. -/
theorem CreateInv.run {s₀ : CreateState} {tr : List (Transition CreateState CreateEvent)}
    (hinv : CreateInv bc s₀) (ideal : IdealAead bc) (hrun : Run (CreateStep bc cr path) s₀ tr s)
    (hcareful : ∀ t ∈ tr, Careful bc t) :
    CreateInv bc s ∧ ∀ t ∈ tr, ∀ entry, Holds bc t.before entry → Holds bc t.after entry := by
  have hstep : ∀ (tr : List (Transition CreateState CreateEvent)) (s : CreateState)
      (e : CreateEvent) (s' : CreateState),
      (CreateInv bc s ∧ ∀ t ∈ tr, ∀ entry, Holds bc t.before entry → Holds bc t.after entry) →
      CreateStep bc cr path s e s' → Careful bc ⟨s, e, s'⟩ →
      CreateInv bc s' ∧ ∀ t ∈ tr ++ [⟨s, e, s'⟩], ∀ entry,
        Holds bc t.before entry → Holds bc t.after entry := by
    intro tr s e s' ⟨hinv, hmono⟩ hs hc
    obtain ⟨hinv', hmono'⟩ := hinv.step ideal hs hc
    refine ⟨hinv', fun t ht => ?_⟩
    rcases List.mem_append.mp ht with ht | ht
    · exact hmono t ht
    · cases List.mem_singleton.mp ht
      exact hmono'
  exact hrun.history (fun tr s => CreateInv bc s ∧ ∀ t ∈ tr, ∀ entry,
    Holds bc t.before entry → Holds bc t.after entry) ⟨hinv, nofun⟩ hstep hcareful

/-- **No key is lost** and no entry is removed, over any run of creates in which no create
fails whose contract is confirmed, one at a time has the temporary file open, and each
replaces the bundle that it read. -/
theorem create_keeps {s₀ : CreateState} {tr : List (Transition CreateState CreateEvent)}
    (ideal : IdealAead bc) (h₀ : s₀.Initial bc) (hrun : Run (CreateStep bc cr path) s₀ tr s)
    (hcareful : ∀ t ∈ tr, Careful bc t) :
    KeysKept bc s ∧ ∀ t ∈ tr, ∀ entry, Holds bc t.before entry → Holds bc t.after entry := by
  obtain ⟨hinv, hmono⟩ := h₀.inv.run ideal hrun hcareful
  exact ⟨hinv.keysKept, hmono⟩

/-! ## Creates that run to the end -/

/-- The events of a create until its contract is confirmed, and from there on. -/
def prepareEvents (r : Nat) (env : PassphraseEnv) (keys : RepoKeys) (name : String) :
    List CreateEvent :=
  [.read r env, .put r keys name, .hostConfirms r, .confirmed r]

def registerEvents (r : Nat) (salt : Vector UInt8 16) (nonce : Vector UInt8 24) (n : Nat) :
    List CreateEvent :=
  [.openTmp r salt nonce, .write r n, .rename r]

variable (cr path) in
/-- A create opens the bundle and publishes its contract. -/
theorem run_prepare (keys : RepoKeys) (name : String) {env : PassphraseEnv}
    {bundle : DecryptedBundle} {passphrase : String} (hstart : s.run r = .start)
    (hopen : openBundleRememberingPassphrase bc path (s.files.read .bundle) env =
      .ok (bundle, passphrase)) :
    ∃ tr s', tr.map (·.event) = prepareEvents r env keys name ∧
      Run (CreateStep bc cr path) s tr s' ∧ (∀ t ∈ tr, Careful bc t) ∧ s'.files = s.files ∧
      s'.run = Function.update s.run r (.registering bundle passphrase (registryEntry cr keys name)) ∧
      s'.published = Function.update s.published r (some (registryEntry cr keys name)) ∧
      s'.confirmed = Function.update s.confirmed r true := by
  have h₀ : Run (CreateStep bc cr path) s [] s := .nil
  have h₁ := h₀.snoc (.read (r := r) hstart hopen)
  have h₂ := h₁.snoc (e := .put r keys name) (.put CreateState.run_setRun_self)
  have h₃ := h₂.snoc (.hostConfirms (r := r) CreateState.published_publish_self)
  have h₄ := h₃.snoc (.confirmed (r := r) CreateState.run_setRun_self (Function.update_self ..))
  refine ⟨_, _, rfl, h₄, fun t ht => ?_, rfl, ?_, rfl, rfl⟩
  · simp only [List.nil_append, List.cons_append, List.mem_cons, List.not_mem_nil, or_false] at ht
    rcases ht with rfl | rfl | rfl | rfl
    · trivial
    · trivial
    · change (CreateState.setRun _ r _).run r ≠ .failed
      rw [CreateState.run_setRun_self]
      nofun
    · trivial
  · change Function.update (Function.update (Function.update s.run r _) r _) r _ = _
    rw [Function.update_idem, Function.update_idem]

variable (cr path) in
/-- A create writes its bundle to the temporary file and renames it. -/
theorem run_register {bundle : DecryptedBundle} {passphrase : String} {entry : RepoRegistryEntry}
    {salt : Vector UInt8 16} {nonce : Vector UInt8 24} {bytes : Bytes}
    (hregistering : s.run r = .registering bundle passphrase entry)
    (hseal : sealBundle bc (bundle.register entry) passphrase salt nonce = .ok bytes) :
    ∃ tr s', tr.map (·.event) = registerEvents r salt nonce bytes.length ∧
      Run (CreateStep bc cr path) s tr s' ∧
      ((∀ q, (s.run q).openFile = none) → s.files.Apart .tmp .bundle → InFile bc s bundle →
        ∀ t ∈ tr, Careful bc t) ∧
      s'.files.read .bundle = some bytes ∧ s'.run = Function.update s.run r .finished ∧
      s'.published = s.published ∧ s'.confirmed = s.confirmed := by
  have hwritten : ((s.files.openTruncate .tmp).write (s.files.opened .tmp) 0
      ((bytes.drop 0).take bytes.length)).content (s.files.opened .tmp) = bytes := by
    have hcontent := @Files.content_openTruncate BundleFile _ s.files .tmp
    rw [Files.content_write, hcontent, ← List.take_zero (l := bytes),
      overwrite_take (Nat.zero_le _), Nat.zero_add, List.take_length]
  obtain ⟨files, hrename⟩ := Files.exists_rename (b := BundleFile.bundle)
    (Files.inode_write.trans (@Files.inode_openTruncate_self BundleFile _ s.files .tmp))
  have h₀ : Run (CreateStep bc cr path) s [] s := .nil
  have h₁ := h₀.snoc (.openTmp (r := r) hregistering hseal)
  have h₂ := h₁.snoc (.write (r := r) (n := bytes.length) CreateState.run_setRun_self)
  have h₃ := h₂.snoc (.rename (r := r) (CreateState.run_setRun_self.trans (by
    rw [Nat.zero_add, Nat.min_self])) hrename)
  refine ⟨_, _, rfl, h₃, fun hnone hapart hfile t ht => ?_, ?_, ?_, rfl, rfl⟩
  · simp only [List.nil_append, List.cons_append, List.mem_cons, List.not_mem_nil, or_false] at ht
    rcases ht with rfl | rfl | rfl
    · exact hnone
    · trivial
    · intro bundle' entry' bytes' fd' k hrun
      cases CreateState.run_setRun_self.symm.trans hrun
      have hread := (Files.read_write (hapart.openTruncate.2 _ Files.inode_openTruncate_self) 0
        ((bytes.drop 0).take bytes.length)).trans (Files.read_openTruncate hapart)
      exact (inFile_congr hread).mpr hfile
  · obtain ⟨hread, -⟩ := Files.read_rename (a := BundleFile.tmp) (b := BundleFile.bundle) nofun
      (Files.inode_write.trans Files.inode_openTruncate_self) hrename
    exact hread.trans (congrArg some hwritten)
  · change Function.update (Function.update (Function.update s.run r _) r _) r _ = _
    rw [Function.update_idem, Function.update_idem]

variable (cr path) in
/-- A create that runs to the end with no other one in the files. -/
theorem run_create (keys : RepoKeys) (name : String) {env : PassphraseEnv}
    {bundle : DecryptedBundle} {passphrase : String} {salt : Vector UInt8 16}
    {nonce : Vector UInt8 24} {bytes : Bytes} (hstart : s.run r = .start)
    (hidle : ∀ q, (s.run q).openFile = none) (hapart : s.files.Apart .tmp .bundle)
    (hopen : openBundleRememberingPassphrase bc path (s.files.read .bundle) env =
      .ok (bundle, passphrase)) (hfile : InFile bc s bundle)
    (hseal : sealBundle bc (bundle.register (registryEntry cr keys name)) passphrase salt nonce =
      .ok bytes) :
    ∃ tr s', tr.map (·.event) = prepareEvents r env keys name ++
        registerEvents r salt nonce bytes.length ∧
      Run (CreateStep bc cr path) s tr s' ∧ (∀ t ∈ tr, Careful bc t) ∧
      s'.files.read .bundle = some bytes ∧ s'.run = Function.update s.run r .finished := by
  obtain ⟨tr₁, s₁, he₁, hrun₁, hcareful₁, hfiles₁, hr₁, -, -⟩ :=
    run_prepare cr path keys name hstart hopen
  have hreg : s₁.run r = .registering bundle passphrase (registryEntry cr keys name) := by
    rw [hr₁, Function.update_self]
  obtain ⟨tr₂, s₂, he₂, hrun₂, hcareful₂, hread₂, hr₂, -, -⟩ := run_register cr path hreg hseal
  have hidle₁ : ∀ q, (s₁.run q).openFile = none := by
    intro q
    by_cases hq : q = r
    · rw [hq, hreg]
      rfl
    · rw [hr₁, Function.update_of_ne hq]
      exact hidle q
  have hfile₁ : InFile bc s₁ bundle :=
    (inFile_congr (congrArg (Files.read · .bundle) hfiles₁)).mpr hfile
  refine ⟨tr₁ ++ tr₂, s₂, ?_, hrun₁.trans hrun₂, fun t ht => ?_, hread₂, ?_⟩
  · rw [List.map_append, he₁, he₂]
  · rcases List.mem_append.mp ht with ht | ht
    · exact hcareful₁ t ht
    · exact hcareful₂ hidle₁ (hfiles₁ ▸ hapart) hfile₁ t ht
  · rw [hr₂, hr₁, Function.update_idem]

/-- **Two creates that open the bundle before either registers**: the second puts back
what it opened, and the key of the first is lost. -/
theorem run_race {q : Nat} {env : PassphraseEnv} {keys keys' : RepoKeys} {name name' : String}
    {bundle : DecryptedBundle} {passphrase : String} {salt : Vector UInt8 16}
    {nonce : Vector UInt8 24} {bytes bytes' : Bytes} (ideal : IdealAead bc) (hqr : q ≠ r)
    (hr : s.run r = .start) (hq : s.run q = .start)
    (hopen : openBundleRememberingPassphrase bc path (s.files.read .bundle) env =
      .ok (bundle, passphrase))
    (hseal : sealBundle bc (bundle.register (registryEntry cr keys name)) passphrase salt nonce =
      .ok bytes)
    (hseal' : sealBundle bc (bundle.register (registryEntry cr keys' name')) passphrase salt nonce =
      .ok bytes')
    (hnew : registryEntry cr keys name ∉
      (bundle.register (registryEntry cr keys' name')).repos) :
    ∃ tr s', tr.map (·.event) = prepareEvents r env keys name ++ prepareEvents q env keys' name' ++
        registerEvents r salt nonce bytes.length ++ registerEvents q salt nonce bytes'.length ∧
      Run (CreateStep bc cr path) s tr s' ∧ ¬ KeysKept bc s' := by
  obtain ⟨tr₁, s₁, he₁, hrun₁, -, hfiles₁, hr₁, hp₁, hc₁⟩ :=
    run_prepare cr path keys name hr hopen
  have hq₁ : s₁.run q = .start := by rw [hr₁, Function.update_of_ne hqr, hq]
  obtain ⟨tr₂, s₂, he₂, hrun₂, -, -, hr₂, hp₂, hc₂⟩ :=
    run_prepare cr path keys' name' hq₁ (hfiles₁.symm ▸ hopen)
  have hreg₂ : s₂.run r = .registering bundle passphrase (registryEntry cr keys name) := by
    rw [hr₂, Function.update_of_ne hqr.symm, hr₁, Function.update_self]
  obtain ⟨tr₃, s₃, he₃, hrun₃, -, -, hr₃, hp₃, hc₃⟩ := run_register cr path hreg₂ hseal
  have hreg₃ : s₃.run q = .registering bundle passphrase (registryEntry cr keys' name') := by
    rw [hr₃, Function.update_of_ne hqr, hr₂, Function.update_self]
  obtain ⟨tr₄, s₄, he₄, hrun₄, -, hread₄, hr₄, hp₄, hc₄⟩ :=
    run_register cr path hreg₃ hseal'
  refine ⟨tr₁ ++ tr₂ ++ tr₃ ++ tr₄, s₄, ?_, ((hrun₁.trans hrun₂).trans hrun₃).trans hrun₄, fun h => ?_⟩
  · rw [List.map_append, List.map_append, List.map_append, he₁, he₂, he₃, he₄]
  · have hpublished : s₄.published r = some (registryEntry cr keys name) := by
      rw [hp₄, hp₃, hp₂, Function.update_of_ne hqr.symm, hp₁, Function.update_self]
    have hconfirmed : s₄.confirmed r = true := by
      rw [hc₄, hc₃, hc₂, Function.update_of_ne hqr.symm, hc₁, Function.update_self]
    have hfinished : s₄.run r = .finished := by
      rw [hr₄, Function.update_of_ne hqr.symm, hr₃, Function.update_self]
    rcases h r _ hpublished hconfirmed with ⟨bundle', ⟨bs, pw, hread, hopen'⟩, hmem⟩ | h
    · obtain ⟨hsealed⟩ := sealBundle_eq_ok hseal'
      cases hread₄.symm.trans hread
      rw [hsealed.opens_only ideal hopen'] at hmem
      exact hnew hmem
    · rw [hfinished] at h
      cases h

end

/-! A cipher that can be evaluated, and a bundle without a passphrase. -/

namespace Sample

/-- The key, the nonce and the associated data, with the message in clear. -/
def plainCipher : Codec (Vector UInt8 32 × Vector UInt8 24 × Bytes × Bytes) :=
  (Codec.array 32).pair ((Codec.array 24).pair (Codec.blob.pair .blob))

def bundleCrypto : BundleCrypto where
  scryptParams _ _ _ := .ok ()
  scrypt _ _ _ _ _ := .ok (zeros 32)
  encrypt key nonce aad msg := plainCipher.enc (key, nonce, aad, msg)
  decrypt key nonce aad c := (plainCipher.read c).bind fun t =>
    if t.1 = key ∧ t.2.1 = nonce ∧ t.2.2.1 = aad then some t.2.2.2 else none
  bincodeError _ := ""

theorem bundle_ideal : IdealAead bundleCrypto where
  decrypt_encrypt {key nonce aad msg c} h := by
    have hread := plainCipher.read_enc h
    simp only [bundleCrypto, hread, Option.bind_some, and_self, if_true]
  authentic {key nonce aad msg c key' nonce' aad' msg'} h h' := by
    have hread := plainCipher.read_enc h
    simp only [bundleCrypto, hread, Option.bind_some] at h'
    split at h'
    · next heq =>
        cases h'
        exact ⟨heq.1.symm, heq.2.1.symm, heq.2.2.symm, rfl⟩
    · cases h'

/-- The bundle of a user without repositories. -/
def userBundle : DecryptedBundle := ⟨[], [], "", "", []⟩

def userEnv : PassphraseEnv := ⟨none, .error ""⟩

def repoKeys (n : UInt8) : RepoKeys := ⟨(zeros 32).set 0 n hash_pos, (zeros 32).set 0 n hash_pos⟩

/-- What a create of the user writes. -/
def sealed (bundle : DecryptedBundle) : Bytes :=
  match sealBundle bundleCrypto bundle "" (zeros 16) (zeros 24) with
  | .ok bytes => bytes
  | .error _ => []

def withRepo (n : UInt8) : DecryptedBundle :=
  userBundle.register (registryEntry unsigned (repoKeys n) "")

theorem seal_user : sealBundle bundleCrypto userBundle "" (zeros 16) (zeros 24) =
    .ok (sealed userBundle) := by decide +kernel

theorem seal_withRepo_one : sealBundle bundleCrypto (withRepo 1) "" (zeros 16) (zeros 24) =
    .ok (sealed (withRepo 1)) := by decide +kernel

theorem seal_withRepo_two : sealBundle bundleCrypto (withRepo 2) "" (zeros 16) (zeros 24) =
    .ok (sealed (withRepo 2)) := by decide +kernel

/-- The bundle after a create of the first repository and one of the second. -/
def withBoth : DecryptedBundle :=
  (withRepo 1).register (registryEntry unsigned (repoKeys 2) "")

theorem seal_withBoth : sealBundle bundleCrypto withBoth "" (zeros 16) (zeros 24) =
    .ok (sealed withBoth) := by decide +kernel

attribute [irreducible] sealed

/-- The bundle file, no temporary file, and creates that have not started. -/
def unstarted : CreateState where
  files :=
    { inode := fun n => match n with
        | .bundle => some 0
        | .tmp => none
      content := fun _ => sealed userBundle
      next := 1
      allocated := by
        rintro (_ | _) i ⟨⟩
        exact Nat.one_pos }
  run _ := .start
  published _ := none
  confirmed _ := false

theorem unstarted_initial : unstarted.Initial bundleCrypto where
  file := ⟨sealed userBundle, userBundle, "", zeros 16, zeros 24, rfl, seal_user⟩
  apart := ⟨nofun, nofun⟩
  run _ := rfl
  published _ := rfl

theorem open_sealed {bundle : DecryptedBundle} {bytes : Bytes}
    (h : sealBundle bundleCrypto bundle "" (zeros 16) (zeros 24) = .ok bytes) :
    openBundleRememberingPassphrase bundleCrypto "" (some bytes) userEnv = .ok (bundle, "") := by
  obtain ⟨hsealed⟩ := sealBundle_eq_ok h
  have hopen := hsealed.opens bundle_ideal
  change openBundlePrompting bundleCrypto "" bytes userEnv = _
  rw [openBundlePrompting, hopen]

theorem open_user : openBundleRememberingPassphrase bundleCrypto "" (unstarted.files.read .bundle)
    userEnv = .ok (userBundle, "") := open_sealed seal_user

/-- A file that was sealed opens to the bundle. -/
theorem inFile_of_read {s : CreateState} {bundle : DecryptedBundle} {bytes : Bytes}
    (h : sealBundle bundleCrypto bundle "" (zeros 16) (zeros 24) = .ok bytes)
    (hread : s.files.read .bundle = some bytes) : InFile bundleCrypto s bundle := by
  obtain ⟨hsealed⟩ := sealBundle_eq_ok h
  exact ⟨bytes, "", hread, hsealed.opens bundle_ideal⟩

end Sample

/-- A create waits with a confirmed key while two others run to the end: none of the three keys
is lost. -/
theorem create_keeps_three : ∃ (tr : List (Transition CreateState CreateEvent)) (s : CreateState),
    tr.map (·.event) = prepareEvents 2 Sample.userEnv (Sample.repoKeys 3) "" ++
      (prepareEvents 0 Sample.userEnv (Sample.repoKeys 1) "" ++
        registerEvents 0 (zeros 16) (zeros 24) (Sample.sealed (Sample.withRepo 1)).length) ++
      (prepareEvents 1 Sample.userEnv (Sample.repoKeys 2) "" ++
        registerEvents 1 (zeros 16) (zeros 24) (Sample.sealed Sample.withBoth).length) ∧
    KeysKept Sample.bundleCrypto s ∧
    ∀ t ∈ tr, ∀ entry, Holds Sample.bundleCrypto t.before entry →
      Holds Sample.bundleCrypto t.after entry := by
  obtain ⟨tr₁, s₁, he₁, hrun₁, hcareful₁, hfiles₁, hr₁, -, -⟩ :=
    run_prepare Sample.unsigned "" (Sample.repoKeys 3) "" (Sample.unstarted_initial.run 2)
      Sample.open_user
  have hread₁ : s₁.files.read .bundle = some (Sample.sealed Sample.userBundle) :=
    congrArg (Files.read · .bundle) hfiles₁
  have hidle₁ : ∀ q, (s₁.run q).openFile = none := by
    rw [hr₁]
    intro q
    by_cases hq : q = 2
    · rw [hq, Function.update_self]
      rfl
    · rw [Function.update_of_ne hq]
      rfl
  obtain ⟨tr₂, s₂, he₂, hrun₂, hcareful₂, hread₂, hr₂⟩ :=
    run_create Sample.unsigned "" (r := 0) (Sample.repoKeys 1) "" (by rw [hr₁]; rfl) hidle₁
      (hfiles₁ ▸ Sample.unstarted_initial.apart) (hread₁ ▸ Sample.open_sealed Sample.seal_user)
      (Sample.inFile_of_read Sample.seal_user hread₁) Sample.seal_withRepo_one
  have hinv₂ := ((Sample.unstarted_initial.inv.run Sample.bundle_ideal hrun₁ hcareful₁).1.run
    Sample.bundle_ideal hrun₂ hcareful₂).1
  have hidle₂ : ∀ q, (s₂.run q).openFile = none := by
    rw [hr₂]
    intro q
    by_cases hq : q = 0
    · rw [hq, Function.update_self]
      rfl
    · rw [Function.update_of_ne hq]
      exact hidle₁ q
  obtain ⟨tr₃, s₃, he₃, hrun₃, hcareful₃, -, -⟩ :=
    run_create Sample.unsigned "" (r := 1) (Sample.repoKeys 2) "" (by rw [hr₂, hr₁]; rfl) hidle₂
      hinv₂.apart (hread₂ ▸ Sample.open_sealed Sample.seal_withRepo_one)
      (Sample.inFile_of_read Sample.seal_withRepo_one hread₂) Sample.seal_withBoth
  refine ⟨tr₁ ++ tr₂ ++ tr₃, s₃, ?_, create_keeps Sample.bundle_ideal Sample.unstarted_initial
    ((hrun₁.trans hrun₂).trans hrun₃) fun t ht => ?_⟩
  · rw [List.map_append, List.map_append, he₁, he₂, he₃]
  · simp only [List.mem_append] at ht
    rcases ht with (ht | ht) | ht
    · exact hcareful₁ t ht
    · exact hcareful₂ t ht
    · exact hcareful₃ t ht

/-- Two creates of one user, one after the other but both from the bundle as it was at
first: the key of the first is lost. -/
theorem create_loses : Sample.unstarted.Initial Sample.bundleCrypto ∧
    ∃ (tr : List (Transition CreateState CreateEvent)) (s : CreateState),
    tr.map (·.event) = prepareEvents 0 Sample.userEnv (Sample.repoKeys 1) "" ++
      prepareEvents 1 Sample.userEnv (Sample.repoKeys 2) "" ++
      registerEvents 0 (zeros 16) (zeros 24) (Sample.sealed (Sample.withRepo 1)).length ++
      registerEvents 1 (zeros 16) (zeros 24) (Sample.sealed (Sample.withRepo 2)).length ∧
    Run (CreateStep Sample.bundleCrypto Sample.unsigned "") Sample.unstarted tr s ∧
    ¬ KeysKept Sample.bundleCrypto s :=
  ⟨Sample.unstarted_initial, run_race Sample.bundle_ideal (by decide) rfl rfl Sample.open_user
    Sample.seal_withRepo_one Sample.seal_withRepo_two (by decide)⟩

end FreenetGit
