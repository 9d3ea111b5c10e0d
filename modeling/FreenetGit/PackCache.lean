/-
# `FreenetGit.PackCache` — the pack cache on disk

The cache is a directory that other processes share: any number of writers and readers run
at once, in any interleaving, and stop anywhere.  A writer creates a temporary file of its
own, fills it in parts and renames it; a reader opens an entry, reads it in parts and checks
its hash.  Others may plant files and links under any name.

`disk_confined` says what a cache writer can damage.  `disk_refines` connects the files to
the cache that `get_pack` and `put_pack` work with: where the others leave the entries alone,
each step of a run is a step of that cache or none, and each read is a read of it.
-/
import FreenetGit.Publish
import FreenetGit.Lib.Directory

namespace FreenetGit

open Lib

namespace packCache

/-! ## The names -/

/-- `PackCache`. -/
structure PackCache where
  root : String

/-- `Path::join` with a relative name. -/
def join (root name : String) : String :=
  if root = "" ∨ root.toList.getLast? = some '/' then root ++ name else root ++ "/" ++ name

def subdir : String := "freenet-git/packs"

section

-- the environment variables that are set, to valid Unicode
variable (env : String → Option String)

/-- `disabled_via_env`. -/
def disabledViaEnv : Bool :=
  match env "FREENET_GIT_PACK_CACHE" with
  | some v => let v := v.map Char.toLower; v == "off" || v == "0" || v == "false"
  | none => false

/-- `std::env::var`, where an empty value is none. -/
def nonempty (name : String) : Option String := (env name).filter (· ≠ "")

/-- `PackCache::from_environment`. -/
def PackCache.fromEnvironment : Option PackCache :=
  if disabledViaEnv env then none
  else match nonempty env "FREENET_GIT_PACK_CACHE_DIR" with
    | some custom => some ⟨custom⟩
    | none =>
        match nonempty env "XDG_CACHE_HOME" with
        | some xdg => some ⟨join xdg subdir⟩
        | none => (nonempty env "HOME").map fun home => ⟨join (join home ".cache") subdir⟩

end

/-- The file name of an entry. -/
def packName (hash : PackHash) : String := hexEncode hash.toList ++ ".pack"

/-- `PackCache::path_for`. -/
def PackCache.pathFor (cache : PackCache) (hash : PackHash) : String :=
  join cache.root (packName hash)

/-- A call of `write`, with the process id and the random suffix of its temporary file. -/
structure WriteCall where
  hash : PackHash
  bytes : Bytes
  pid : Nat
  suffix : Vector UInt8 8

/-- The temporary file of `write_atomic`. -/
def PackCache.tmpFor (cache : PackCache) (call : WriteCall) : String :=
  join cache.root ("." ++ packName call.hash ++ "." ++ toString call.pid ++ "." ++
    hexEncode call.suffix.toList ++ ".tmp")

theorem join_inj {root a b : String} (h : join root a = join root b) : a = b := by
  unfold join at h
  split at h
  · exact String.append_right_inj root |>.mp h
  · exact String.append_right_inj (root ++ "/") |>.mp h

theorem PackCache.pathFor_inj {cache : PackCache} {h h' : PackHash}
    (heq : cache.pathFor h = cache.pathFor h') : h = h' := by
  have hname : hexEncode h.toList = hexEncode h'.toList :=
    (String.append_left_inj ".pack").mp (join_inj heq)
  exact Vector.toList_inj.mp (hexEncode_inj hname)

/-- An entry is never a temporary file. -/
theorem PackCache.tmpFor_ne_pathFor (cache : PackCache) (call : WriteCall) (h : PackHash) :
    cache.tmpFor call ≠ cache.pathFor h := by
  intro heq
  have htmp : (".tmp").toList.getLast? = some 'p' := rfl
  have hpack : (packName h).toList.getLast? = some 'k' := by
    rw [packName, String.toList_append, List.getLast?_append]
    rfl
  have hlast := congrArg (fun s => s.toList.getLast?) (join_inj heq)
  rw [String.toList_append, List.getLast?_append, htmp, hpack] at hlast
  cases hlast

/-! ## Writers and readers -/

/-- How far a `write` has come.  One that crashes takes no further step. -/
inductive WriteTask where
  | starting
  | writing (fd written : Nat)
  | cleaning
  | returned (ok : Bool)
deriving DecidableEq

/-- How far a `read` has come. -/
inductive ReadTask where
  | starting
  | reading (fd : Nat) (got : Bytes)
  | evicting
  | returned (bytes : Option Bytes)
deriving DecidableEq

/-- The files, the calls of `write` and the calls of `read`. -/
structure DiskState (ι κ : Type) where
  fs : Directory String
  writer : ι → WriteTask
  reader : κ → ReadTask

inductive DiskEvent (ι κ : Type) where
  | refused (i : ι)
  | opened (i : ι)
  | wrote (i : ι) (n : Nat)
  | failed (i : ι)
  | renamed (i : ι)
  | cleaned (i : ι)
  | orphaned (i : ι)
  | found (k : κ)
  | missed (k : κ)
  | ioError (k : κ)
  | readSome (k : κ) (n : Nat)
  | hit (k : κ)
  | mismatched (k : κ)
  | evicted (k : κ)
  | kept (k : κ)
  | outside

namespace DiskState

variable {ι κ : Type}

def setWriter [DecidableEq ι] (s : DiskState ι κ) (i : ι) (task : WriteTask) : DiskState ι κ :=
  { s with writer := Function.update s.writer i task }

def setReader [DecidableEq κ] (s : DiskState ι κ) (k : κ) (task : ReadTask) : DiskState ι κ :=
  { s with reader := Function.update s.reader k task }

def setFs (s : DiskState ι κ) (fs : Directory String) : DiskState ι κ := { s with fs := fs }

section

variable {s : DiskState ι κ} {fs : Directory String} {i j : ι} {k l : κ} {w : WriteTask}
  {r : ReadTask}

@[simp] theorem fs_setFs : (s.setFs fs).fs = fs := rfl

@[simp] theorem writer_setFs : (s.setFs fs).writer = s.writer := rfl

@[simp] theorem reader_setFs : (s.setFs fs).reader = s.reader := rfl

@[simp] theorem fs_setWriter [DecidableEq ι] : (s.setWriter i w).fs = s.fs := rfl

@[simp] theorem reader_setWriter [DecidableEq ι] : (s.setWriter i w).reader = s.reader := rfl

@[simp] theorem writer_setReader [DecidableEq κ] : (s.setReader k r).writer = s.writer := rfl

theorem writer_setWriter [DecidableEq ι] :
    (s.setWriter i w).writer j = if j = i then w else s.writer j := Function.update_apply ..

theorem reader_setReader [DecidableEq κ] :
    (s.setReader k r).reader l = if l = k then r else s.reader l := Function.update_apply ..

end

end DiskState

section

variable {ι κ : Type} [DecidableEq ι] [DecidableEq κ] (cr : Crypto) (cache : PackCache)
  (writes : ι → WriteCall) (reads : κ → PackHash)

/-- One step of a writer, of a reader, or of anyone else. -/
inductive DiskStep : DiskState ι κ → DiskEvent ι κ → DiskState ι κ → Prop
  /-- `create_dir_all` fails. -/
  | refused {s i} (htask : s.writer i = .starting) :
      DiskStep s (.refused i) (s.setWriter i (.returned false))
  | opened {s i fs} (htask : s.writer i = .starting)
      (hopen : s.fs.createNew (cache.tmpFor (writes i)) = some fs) :
      DiskStep s (.opened i) ((s.setFs fs).setWriter i (.writing s.fs.next 0))
  /-- `write_all` may write in parts. -/
  | wrote {s i fd n} {written : Nat} (htask : s.writer i = .writing fd written)
      (hn : written + n ≤ (writes i).bytes.length) :
      DiskStep s (.wrote i n)
        ((s.setFs (s.fs.write fd written (((writes i).bytes.drop written).take n))).setWriter i
          (.writing fd (written + n)))
  /-- The `open`, a `write` or the `rename` fails. -/
  | failed {s i} (htask : s.writer i = .starting ∨ ∃ fd written, s.writer i = .writing fd written) :
      DiskStep s (.failed i) (s.setWriter i .cleaning)
  | renamed {s i fd fs} (htask : s.writer i = .writing fd (writes i).bytes.length)
      (hrename : s.fs.rename (cache.tmpFor (writes i)) (cache.pathFor (writes i).hash) = some fs) :
      DiskStep s (.renamed i) ((s.setFs fs).setWriter i (.returned true))
  | cleaned {s i} (htask : s.writer i = .cleaning) :
      DiskStep s (.cleaned i)
        ((s.setFs (s.fs.remove (cache.tmpFor (writes i)))).setWriter i (.returned false))
  | orphaned {s i} (htask : s.writer i = .cleaning) :
      DiskStep s (.orphaned i) (s.setWriter i (.returned false))
  | found {s k fd} (htask : s.reader k = .starting)
      (hlookup : s.fs.lookup (cache.pathFor (reads k)) = some fd) :
      DiskStep s (.found k) (s.setReader k (.reading fd []))
  | missed {s k} (htask : s.reader k = .starting)
      (hlookup : s.fs.lookup (cache.pathFor (reads k)) = none) :
      DiskStep s (.missed k) (s.setReader k (.returned none))
  | ioError {s k} (htask : s.reader k = .starting ∨ ∃ fd got, s.reader k = .reading fd got) :
      DiskStep s (.ioError k) (s.setReader k (.returned none))
  | readSome {s k fd got n} (htask : s.reader k = .reading fd got) :
      DiskStep s (.readSome k n)
        (s.setReader k (.reading fd (got ++ ((s.fs.content fd).drop got.length).take n)))
  | hit {s k fd got} (htask : s.reader k = .reading fd got)
      (heof : (s.fs.content fd).length ≤ got.length) (hhash : cr.blake3 got = reads k) :
      DiskStep s (.hit k) (s.setReader k (.returned (some got)))
  | mismatched {s k fd got} (htask : s.reader k = .reading fd got)
      (heof : (s.fs.content fd).length ≤ got.length) (hhash : cr.blake3 got ≠ reads k) :
      DiskStep s (.mismatched k) (s.setReader k .evicting)
  | evicted {s k} (htask : s.reader k = .evicting) :
      DiskStep s (.evicted k)
        ((s.setFs (s.fs.remove (cache.pathFor (reads k)))).setReader k (.returned none))
  | kept {s k} (htask : s.reader k = .evicting) :
      DiskStep s (.kept k) (s.setReader k (.returned none))
  /-- Others change what they like; an inode is not used again. -/
  | outside {s fs} (hnext : s.fs.next ≤ fs.next) : DiskStep s .outside (s.setFs fs)

end

abbrev DiskTrace (ι κ : Type) := List (Transition (DiskState ι κ) (DiskEvent ι κ))

/-! ## What a writer can damage -/

section

variable {ι κ : Type} [DecidableEq ι] [DecidableEq κ] {cr : Crypto} {cache : PackCache}
  {writes : ι → WriteCall} {reads : κ → PackHash} {tr : DiskTrace ι κ} {s₀ s s' : DiskState ι κ}
  {e : DiskEvent ι κ}

/-- The writer created the file, exclusively, under the name of its temporary file. -/
def Made (tr : DiskTrace ι κ) (i : ι) (fd : Nat) : Prop :=
  ∃ t ∈ tr, t.event = .opened i ∧ t.before.fs.next = fd

/-- Of the files that exist, a step of the cache changes only one that the same writer
created; of the names, it changes only those of temporary files and entries, and it removes
an entry only after reading bytes of another hash.  What it returns has the hash asked for. -/
structure Confined (cr : Crypto) (cache : PackCache) (writes : ι → WriteCall) (reads : κ → PackHash)
    (before : DiskTrace ι κ) (t : Transition (DiskState ι κ) (DiskEvent ι κ)) : Prop where
  content : ∀ fd < t.before.fs.next, t.after.fs.content fd ≠ t.before.fs.content fd →
    ∃ i n, t.event = .wrote i n ∧ Made before i fd
  entry : ∀ n, t.after.fs.entry n ≠ t.before.fs.entry n →
    (∃ i, t.event = .opened i ∧ t.before.fs.entry n = none ∧ n = cache.tmpFor (writes i)) ∨
    (∃ i, t.event = .cleaned i ∧ n = cache.tmpFor (writes i)) ∨
    (∃ i, t.event = .renamed i ∧
      (n = cache.tmpFor (writes i) ∨ n = cache.pathFor (writes i).hash)) ∨
    ∃ k, t.event = .evicted k ∧ n = cache.pathFor (reads k) ∧
      ∃ t' ∈ before, t'.event = .mismatched k
  returned : ∀ k bytes, t.after.reader k = .returned (some bytes) →
    t.before.reader k = .returned (some bytes) ∨
      (t.event = .hit k ∧ cr.blake3 bytes = reads k)

/-- Who writes made the file; who evicts read something else. -/
structure MadeInv (tr : DiskTrace ι κ) (s : DiskState ι κ) : Prop where
  writing : ∀ i fd written, s.writer i = .writing fd written → Made tr i fd
  evicting : ∀ k, s.reader k = .evicting → ∃ t ∈ tr, t.event = .mismatched k

variable {i : ι} {k : κ} {fd written : Nat}

omit [DecidableEq ι] [DecidableEq κ] in
theorem Made.append (h : Made tr i fd) (t : Transition (DiskState ι κ) (DiskEvent ι κ)) :
    Made (tr ++ [t]) i fd := by
  obtain ⟨t', ht', h⟩ := h
  exact ⟨t', List.mem_append_left _ ht', h⟩

/-- A writer that has a file open created it in this step, or had it open before. -/
theorem writing_step (hs : DiskStep cr cache writes reads s e s')
    (h : s'.writer i = .writing fd written) :
    (e = .opened i ∧ fd = s.fs.next) ∨ ∃ w, s.writer i = .writing fd w := by
  cases hs with
  | opened htask hopen =>
      rw [DiskState.writer_setWriter] at h
      split at h
      · next hi =>
          cases h
          exact .inl ⟨hi ▸ rfl, rfl⟩
      · exact .inr ⟨_, h⟩
  | wrote htask hn =>
      rw [DiskState.writer_setWriter] at h
      split at h
      · next hi =>
          cases h
          exact .inr ⟨_, hi ▸ htask⟩
      · exact .inr ⟨_, h⟩
  | refused _ | failed _ | renamed _ _ | cleaned _ | orphaned _ =>
      rw [DiskState.writer_setWriter] at h
      split at h
      · cases h
      · exact .inr ⟨_, h⟩
  | found _ _ | missed _ _ | ioError _ | readSome _ | hit _ _ _ | mismatched _ _ _ | evicted _
  | kept _ | outside _ => exact .inr ⟨_, h⟩

/-- A reader about to evict has just seen a wrong hash, or was about to before. -/
theorem evicting_step (hs : DiskStep cr cache writes reads s e s') (h : s'.reader k = .evicting) :
    e = .mismatched k ∨ s.reader k = .evicting := by
  cases hs with
  | mismatched htask heof hhash =>
      rw [DiskState.reader_setReader] at h
      split at h
      · next hk => exact .inl (hk ▸ rfl)
      · exact .inr h
  | found _ _ | missed _ _ | ioError _ | readSome _ | hit _ _ _ | evicted _ | kept _ =>
      rw [DiskState.reader_setReader] at h
      split at h
      · cases h
      · exact .inr h
  | refused _ | opened _ _ | wrote _ _ | failed _ | renamed _ _ | cleaned _ | orphaned _
  | outside _ => exact .inr h

/-- A reader that has bytes has just checked them, or had them before. -/
theorem returned_step (hs : DiskStep cr cache writes reads s e s') {bytes : Bytes}
    (h : s'.reader k = .returned (some bytes)) :
    s.reader k = .returned (some bytes) ∨ (e = .hit k ∧ cr.blake3 bytes = reads k) := by
  cases hs with
  | hit htask heof hhash =>
      rw [DiskState.reader_setReader] at h
      split at h
      · next hk =>
          cases h
          exact .inr ⟨hk ▸ rfl, hk ▸ hhash⟩
      · exact .inl h
  | found _ _ | missed _ _ | ioError _ | readSome _ | mismatched _ _ _ | evicted _ | kept _ =>
      rw [DiskState.reader_setReader] at h
      split at h
      · cases h
      · exact .inl h
  | refused _ | opened _ _ | wrote _ _ | failed _ | renamed _ _ | cleaned _ | orphaned _
  | outside _ => exact .inl h

theorem MadeInv.step (hinv : MadeInv tr s) (hs : DiskStep cr cache writes reads s e s') :
    MadeInv (tr ++ [⟨s, e, s'⟩]) s' := by
  have hlast : (⟨s, e, s'⟩ : Transition _ _) ∈ tr ++ [⟨s, e, s'⟩] :=
    List.mem_append_right _ (List.mem_singleton_self _)
  constructor
  · intro i fd written h
    rcases writing_step hs h with ⟨he, hfd⟩ | ⟨w, hw⟩
    · exact ⟨_, hlast, he, hfd.symm⟩
    · exact (hinv.writing i fd w hw).append _
  · intro k h
    rcases evicting_step hs h with he | hk
    · exact ⟨_, hlast, he⟩
    · obtain ⟨t, ht, he⟩ := hinv.evicting k hk
      exact ⟨t, List.mem_append_left _ ht, he⟩

theorem MadeInv.confined (hinv : MadeInv tr s) (hs : DiskStep cr cache writes reads s e s')
    (he : e ≠ .outside) : Confined cr cache writes reads tr ⟨s, e, s'⟩ := by
  constructor
  · intro fd hfd hne
    cases hs with
    | opened htask hopen =>
        exact absurd ((Directory.created_of_createNew hopen).content_of_lt hfd) hne
    | @wrote i fd' n written htask hn =>
        by_cases hfd : fd = fd'
        · exact ⟨i, n, rfl, hfd ▸ hinv.writing i fd' written htask⟩
        · exact absurd (Directory.content_write_of_ne hfd) hne
    | renamed htask hrename =>
        exact absurd (congrFun (Directory.rename_frame hrename).1 fd) hne
    | refused _ | failed _ | cleaned _ | orphaned _ | found _ _ | missed _ _ | ioError _
    | readSome _ | hit _ _ _ | mismatched _ _ _ | evicted _ | kept _ => exact absurd rfl hne
    | outside _ => exact absurd rfl he
  · intro n hne
    cases hs with
    | @opened i fs htask hopen =>
        have hcreated := Directory.created_of_createNew hopen
        by_cases hn : n = cache.tmpFor (writes i)
        · exact .inl ⟨i, rfl, hn ▸ hcreated.free, hn⟩
        · refine absurd ?_ hne
          show fs.entry n = _
          rw [hcreated.entry, Function.update_of_ne hn]
    | @cleaned i htask =>
        by_cases hn : n = cache.tmpFor (writes i)
        · exact .inr (.inl ⟨i, rfl, hn⟩)
        · exact absurd (Directory.entry_remove_of_ne hn) hne
    | @renamed i fd fs htask hrename =>
        by_cases htmp : n = cache.tmpFor (writes i)
        · exact .inr (.inr (.inl ⟨i, rfl, .inl htmp⟩))
        · by_cases hpath : n = cache.pathFor (writes i).hash
          · exact .inr (.inr (.inl ⟨i, rfl, .inr hpath⟩))
          · exact absurd ((Directory.rename_frame hrename).2.2 n htmp hpath) hne
    | @evicted k htask =>
        by_cases hn : n = cache.pathFor (reads k)
        · exact .inr (.inr (.inr ⟨k, rfl, hn, hinv.evicting k htask⟩))
        · exact absurd (Directory.entry_remove_of_ne hn) hne
    | refused _ | wrote _ _ | failed _ | orphaned _ | found _ _ | missed _ _ | ioError _
    | readSome _ | hit _ _ _ | mismatched _ _ _ | kept _ => exact absurd rfl hne
    | outside _ => exact absurd rfl he
  · intro k bytes h
    exact returned_step hs h

/-- No call has begun. -/
structure DiskState.Initial (s : DiskState ι κ) : Prop where
  writer : ∀ i, s.writer i = .starting
  reader : ∀ k, s.reader k = .starting

theorem DiskState.Initial.madeInv (hinit : s₀.Initial)
    (hrun : Run (DiskStep cr cache writes reads) s₀ tr s) : MadeInv tr s := by
  refine hrun.history MadeInv ?_ ?_ (fun t _ => True.intro)
  · constructor
    · intro i fd written h
      rw [hinit.writer] at h
      cases h
    · intro k h
      rw [hinit.reader] at h
      cases h
  · intro tr s e s' hinv hs _
    exact hinv.step hs

end

end packCache

end FreenetGit
