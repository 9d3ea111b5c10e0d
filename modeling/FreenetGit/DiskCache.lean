/-
# `FreenetGit.DiskCache` — the files of the pack cache refine the cache

`get_pack` and `put_pack` work with a cache that is read and written at once.  On disk a
write and a read take many steps, and any number of them run at the same time.  Where nobody
else changes the entries, each step of a run is a write of that cache or changes nothing,
and each read is a read of it (`disk_refines`).  When no writer is at work, what the cache has
left behind is whole packs, and what it failed to remove (`disk_leaves`).
-/
import FreenetGit.PackCache

namespace FreenetGit

open Lib

namespace packCache

section

variable {ι κ : Type} [DecidableEq ι] [DecidableEq κ] {cr : Crypto} {cache : PackCache}
  {writes : ι → WriteCall} {reads : κ → PackHash} {tr : DiskTrace ι κ} {s₀ s s' : DiskState ι κ}
  {e : DiskEvent ι κ} {i : ι} {k : κ} {fd written : Nat}

/-! ## The cache that the files stand for -/

/-- What a lookup would read: the cache of `get_pack` and `put_pack`. -/
def DiskState.cached (cache : PackCache) (s : DiskState ι κ) : FreenetGit.PackCache :=
  some fun hash => (s.fs.lookup (cache.pathFor hash)).map s.fs.content

/-- The calls have temporary files of their own, and store bytes under their hash. -/
structure ProperCalls (cr : Crypto) (cache : PackCache) (writes : ι → WriteCall) : Prop where
  distinct : ∀ i j, cache.tmpFor (writes i) = cache.tmpFor (writes j) → i = j
  hashed : ∀ i, cr.blake3 (writes i).bytes = (writes i).hash

/-- No writer has the file open. -/
def DiskState.Settled (s : DiskState ι κ) (fd : Nat) : Prop :=
  ∀ i written, s.writer i ≠ .writing fd written

/-- An entry leads to the file, or a call has it open. -/
def DiskState.InUse (cache : PackCache) (s : DiskState ι κ) (fd : Nat) : Prop :=
  (∃ hash, s.fs.entry (cache.pathFor hash) = some (.file fd)) ∨
    (∃ i written, s.writer i = .writing fd written) ∨ ∃ k got, s.reader k = .reading fd got

/-- Others leave the names of the cache alone, and the files that it uses. -/
def Tidy (cache : PackCache) (writes : ι → WriteCall)
    (t : Transition (DiskState ι κ) (DiskEvent ι κ)) : Prop :=
  t.event = .outside →
    (∀ hash, t.after.fs.entry (cache.pathFor hash) = t.before.fs.entry (cache.pathFor hash)) ∧
    (∀ i, t.after.fs.entry (cache.tmpFor (writes i)) =
      t.before.fs.entry (cache.tmpFor (writes i))) ∧
    ∀ fd, t.before.InUse cache fd → t.after.fs.content fd = t.before.fs.content fd

/-- Every entry is a whole pack, which nobody writes. -/
def Whole (cr : Crypto) (cache : PackCache) (s : DiskState ι κ) : Prop :=
  ∀ hash e, s.fs.entry (cache.pathFor hash) = some e →
    ∃ fd, e = .file fd ∧ cr.blake3 (s.fs.content fd) = hash ∧ s.Settled fd

/-- The entries are whole, a writer alone has its temporary file open, and a reader reads a
whole pack. -/
structure DiskInv (cr : Crypto) (cache : PackCache) (writes : ι → WriteCall)
    (reads : κ → PackHash) (s : DiskState ι κ) : Prop where
  entries : Whole cr cache s
  writing : ∀ i fd written, s.writer i = .writing fd written →
    s.fs.entry (cache.tmpFor (writes i)) = some (.file fd) ∧
      written ≤ (writes i).bytes.length ∧ s.fs.content fd = (writes i).bytes.take written
  single : ∀ i j fd v w, s.writer i = .writing fd v → s.writer j = .writing fd w → i = j
  reading : ∀ k fd got, s.reader k = .reading fd got → fd < s.fs.next ∧ s.Settled fd ∧
    cr.blake3 (s.fs.content fd) = reads k ∧ got <+: s.fs.content fd
  evicting : ∀ k, s.reader k ≠ .evicting

namespace DiskInv

omit [DecidableEq κ] in
/-- A writer that stops leaves its file as it is. -/
theorem stop (hinv : DiskInv cr cache writes reads s) {task : WriteTask}
    (htask : ∀ fd written, task ≠ .writing fd written) :
    DiskInv cr cache writes reads (s.setWriter i task) := by
  have hwriter : ∀ j fd written, (s.setWriter i task).writer j = .writing fd written →
      s.writer j = .writing fd written := by
    intro j fd written h
    rw [DiskState.writer_setWriter] at h
    split at h
    · exact absurd h (htask fd written)
    · exact h
  have hsettled : ∀ fd, s.Settled fd → (s.setWriter i task).Settled fd :=
    fun fd h j written hj => h j written (hwriter j fd written hj)
  constructor
  · intro hash e he
    obtain ⟨fd, rfl, hhash, hfd⟩ := hinv.entries hash e he
    exact ⟨fd, rfl, hhash, hsettled fd hfd⟩
  · intro j fd written h
    exact hinv.writing j fd written (hwriter j fd written h)
  · intro j j' fd v w h h'
    exact hinv.single j j' fd v w (hwriter j fd v h) (hwriter j' fd w h')
  · intro k fd got h
    obtain ⟨hlt, hfd, hrest⟩ := hinv.reading k fd got h
    exact ⟨hlt, hsettled fd hfd, hrest⟩
  · exact hinv.evicting

omit [DecidableEq ι] in
/-- A reader moves on. -/
theorem setReader (hinv : DiskInv cr cache writes reads s) {task : ReadTask}
    (hevict : task ≠ .evicting)
    (hread : ∀ fd got, task = .reading fd got → fd < s.fs.next ∧ s.Settled fd ∧
      cr.blake3 (s.fs.content fd) = reads k ∧ got <+: s.fs.content fd) :
    DiskInv cr cache writes reads (s.setReader k task) where
  entries := hinv.entries
  writing := hinv.writing
  single := hinv.single
  reading l fd got h := by
    rw [DiskState.reader_setReader] at h
    split at h
    · next hl => exact hl ▸ hread fd got h
    · exact hinv.reading l fd got h
  evicting l h := by
    rw [DiskState.reader_setReader] at h
    split at h
    · exact hevict h
    · exact hinv.evicting l h

omit [DecidableEq ι] [DecidableEq κ] in
/-- The files change so that the entries, the temporary files that are open and the files in
use stay. -/
theorem setFs (hinv : DiskInv cr cache writes reads s) {fs : Directory String}
    (hnext : s.fs.next ≤ fs.next)
    (hentry : ∀ hash, fs.entry (cache.pathFor hash) = s.fs.entry (cache.pathFor hash))
    (htmp : ∀ i fd written, s.writer i = .writing fd written →
      fs.entry (cache.tmpFor (writes i)) = s.fs.entry (cache.tmpFor (writes i)))
    (hcontent : ∀ fd, s.InUse cache fd → fs.content fd = s.fs.content fd) :
    DiskInv cr cache writes reads (s.setFs fs) where
  entries hash e he := by
    rw [DiskState.fs_setFs, hentry] at he
    obtain ⟨fd, rfl, hhash, hfd⟩ := hinv.entries hash e he
    exact ⟨fd, rfl, (hcontent fd (.inl ⟨hash, he⟩)).symm ▸ hhash, hfd⟩
  writing i fd written h := by
    obtain ⟨hfile, hle, hbytes⟩ := hinv.writing i fd written h
    exact ⟨(htmp i fd written h).trans hfile, hle,
      (hcontent fd (.inr (.inl ⟨i, written, h⟩))).trans hbytes⟩
  single := hinv.single
  reading k fd got h := by
    obtain ⟨hlt, hfd, hhash, hgot⟩ := hinv.reading k fd got h
    have hsame := hcontent fd (.inr (.inr ⟨k, got, h⟩))
    exact ⟨hlt.trans_le hnext, hfd, hsame.symm ▸ hhash, hsame.symm ▸ hgot⟩
  evicting := hinv.evicting

omit [DecidableEq ι] [DecidableEq κ] in
theorem lt_of_inUse (hinv : DiskInv cr cache writes reads s) (h : s.InUse cache fd) :
    fd < s.fs.next := by
  rcases h with ⟨hash, h⟩ | ⟨i, written, h⟩ | ⟨k, got, h⟩
  · exact s.fs.allocated _ fd h
  · exact s.fs.allocated _ fd (hinv.writing i fd written h).1
  · exact (hinv.reading k fd got h).1

omit [DecidableEq κ] in
/-- A writer has an empty file open that nobody uses. -/
theorem start (hinv : DiskInv cr cache writes reads s)
    (hfile : s.fs.entry (cache.tmpFor (writes i)) = some (.file fd))
    (hempty : s.fs.content fd = []) (hunused : ¬ s.InUse cache fd) :
    DiskInv cr cache writes reads (s.setWriter i (.writing fd 0)) := by
  have hsettled : ∀ fd', s.Settled fd' → fd' ≠ fd →
      (s.setWriter i (.writing fd 0)).Settled fd' := by
    intro fd' h hne j written hj
    rw [DiskState.writer_setWriter] at hj
    split at hj
    · cases hj
      exact hne rfl
    · exact h j written hj
  have hother : ∀ j fd' v, j ≠ i → s.writer j = .writing fd' v → fd' ≠ fd := by
    intro j fd' v _ h hfd
    exact hunused (.inr (.inl ⟨j, v, hfd ▸ h⟩))
  constructor
  · intro hash e he
    obtain ⟨fd', rfl, hhash, hfd'⟩ := hinv.entries hash e he
    refine ⟨fd', rfl, hhash, hsettled fd' hfd' ?_⟩
    rintro rfl
    exact hunused (.inl ⟨hash, he⟩)
  · intro j fd' written h
    rw [DiskState.writer_setWriter] at h
    split at h
    · next hj =>
        cases h
        exact ⟨hj ▸ hfile, Nat.zero_le _, hempty⟩
    · exact hinv.writing j fd' written h
  · intro j j' fd' v w h h'
    rw [DiskState.writer_setWriter] at h h'
    split at h
    · next hj =>
        cases h
        split at h'
        · next hj' => exact hj.trans hj'.symm
        · next hj' => exact absurd rfl (hother j' fd w hj' h')
    · next hj =>
        split at h'
        · cases h'
          exact absurd rfl (hother j fd v hj h)
        · exact hinv.single j j' fd' v w h h'
  · intro k fd' got h
    obtain ⟨hlt, hfd', hrest⟩ := hinv.reading k fd' got h
    refine ⟨hlt, hsettled fd' hfd' ?_, hrest⟩
    rintro rfl
    exact hunused (.inr (.inr ⟨k, got, h⟩))
  · exact hinv.evicting

omit [DecidableEq κ] in
/-- A writer writes on. -/
theorem advance (hinv : DiskInv cr cache writes reads s) {n : Nat}
    (htask : s.writer i = .writing fd written) (hn : written + n ≤ (writes i).bytes.length) :
    DiskInv cr cache writes reads
      ((s.setFs (s.fs.write fd written (((writes i).bytes.drop written).take n))).setWriter i
        (.writing fd (written + n))) := by
  obtain ⟨hfile, hle, hbytes⟩ := hinv.writing i fd written htask
  have hwriter : ∀ j fd' v,
      ((s.setFs (s.fs.write fd written (((writes i).bytes.drop written).take n))).setWriter i
        (.writing fd (written + n))).writer j = .writing fd' v →
      ∃ w, s.writer j = .writing fd' w := by
    intro j fd' v h
    rw [DiskState.writer_setWriter] at h
    split at h
    · next hj =>
        cases h
        exact ⟨written, hj ▸ htask⟩
    · exact ⟨v, h⟩
  have hsettled : ∀ fd', s.Settled fd' →
      fd' ≠ fd ∧ ((s.setFs (s.fs.write fd written
        (((writes i).bytes.drop written).take n))).setWriter i
          (.writing fd (written + n))).Settled fd' := by
    intro fd' h
    refine ⟨?_, fun j v hj => ?_⟩
    · rintro rfl
      exact h i written htask
    · obtain ⟨w, hw⟩ := hwriter j fd' v hj
      exact h j w hw
  constructor
  · intro hash e he
    obtain ⟨fd', rfl, hhash, hfd'⟩ := hinv.entries hash e he
    obtain ⟨hne, hsettled⟩ := hsettled fd' hfd'
    exact ⟨fd', rfl, (Directory.content_write_of_ne hne).symm ▸ hhash, hsettled⟩
  · intro j fd' v h
    rw [DiskState.writer_setWriter] at h
    split at h
    · next hj =>
        cases h
        refine ⟨hj ▸ hfile, hj ▸ hn, ?_⟩
        show (s.fs.write _ _ _).content fd = _
        rw [Directory.content_write_self, hbytes, hj, overwrite_take hle]
    · next hj =>
        obtain ⟨hfile', hle', hbytes'⟩ := hinv.writing j fd' v h
        have hne : fd' ≠ fd := by
          rintro rfl
          exact hj (hinv.single j i fd' v written h htask)
        exact ⟨hfile', hle', (Directory.content_write_of_ne hne).trans hbytes'⟩
  · intro j j' fd' v w h h'
    obtain ⟨v', hv⟩ := hwriter j fd' v h
    obtain ⟨w', hw⟩ := hwriter j' fd' w h'
    exact hinv.single j j' fd' v' w' hv hw
  · intro k fd' got h
    obtain ⟨hlt, hfd', hhash, hgot⟩ := hinv.reading k fd' got h
    obtain ⟨hne, hsettled⟩ := hsettled fd' hfd'
    have hsame : (s.fs.write fd written (((writes i).bytes.drop written).take n)).content fd' =
        s.fs.content fd' := Directory.content_write_of_ne hne
    exact ⟨hlt, hsettled, hsame.symm ▸ hhash, hsame.symm ▸ hgot⟩
  · exact hinv.evicting

section

variable (hcalls : ProperCalls cr cache writes)

include hcalls

omit [DecidableEq κ] in
/-- A writer renames its file, which is whole. -/
theorem rename (hinv : DiskInv cr cache writes reads s) {fs : Directory String}
    (htask : s.writer i = .writing fd (writes i).bytes.length)
    (hrename : s.fs.rename (cache.tmpFor (writes i)) (cache.pathFor (writes i).hash) = some fs) :
    DiskInv cr cache writes reads ((s.setFs fs).setWriter i (.returned true)) ∧
      fs.entry (cache.pathFor (writes i).hash) = some (.file fd) ∧
      fs.content fd = (writes i).bytes := by
  obtain ⟨hfile, -, hbytes⟩ := hinv.writing i fd _ htask
  rw [List.take_length] at hbytes
  obtain ⟨hcontent, hnext, hframe⟩ := Directory.rename_frame hrename
  have hfree : s.fs.entry (cache.pathFor (writes i).hash) ≠ some (.file fd) := by
    intro he
    obtain ⟨fd', hfd', -, hsettled⟩ := hinv.entries _ _ he
    cases hfd'
    exact hsettled i _ htask
  obtain ⟨htmp, hpath⟩ := Directory.rename_file
    (cache.tmpFor_ne_pathFor (writes i) (writes i).hash) hfile hfree hrename
  have hwriter : ∀ j fd' v, ((s.setFs fs).setWriter i (.returned true)).writer j = .writing fd' v →
      j ≠ i ∧ s.writer j = .writing fd' v := by
    intro j fd' v h
    rw [DiskState.writer_setWriter] at h
    split at h
    · cases h
    · next hj => exact ⟨hj, h⟩
  have hsettled : ∀ fd', s.Settled fd' →
      ((s.setFs fs).setWriter i (.returned true)).Settled fd' :=
    fun fd' h j v hj => h j v (hwriter j fd' v hj).2
  refine ⟨⟨?_, ?_, ?_, ?_, hinv.evicting⟩, hpath, hcontent ▸ hbytes⟩
  · intro hash e he
    by_cases hhash : hash = (writes i).hash
    · subst hhash
      cases hpath.symm.trans he
      refine ⟨fd, rfl, ?_, fun j v hj => ?_⟩
      · show cr.blake3 (fs.content fd) = _
        rw [hcontent, hbytes, hcalls.hashed]
      · obtain ⟨hne, hj⟩ := hwriter j fd v hj
        exact hne (hinv.single j i fd v _ hj htask)
    · have hsame : fs.entry (cache.pathFor hash) = s.fs.entry (cache.pathFor hash) :=
        hframe _ (cache.tmpFor_ne_pathFor (writes i) hash).symm
          fun heq => hhash (PackCache.pathFor_inj heq)
      obtain ⟨fd', rfl, hb, hfd'⟩ := hinv.entries hash e (hsame.symm.trans he)
      exact ⟨fd', rfl, (congrArg cr.blake3 (congrFun hcontent fd')).trans hb, hsettled fd' hfd'⟩
  · intro j fd' v h
    obtain ⟨hne, hj⟩ := hwriter j fd' v h
    obtain ⟨hfile', hle', hbytes'⟩ := hinv.writing j fd' v hj
    refine ⟨?_, hle', (congrFun hcontent fd').trans hbytes'⟩
    exact (hframe _ (fun heq => hne (hcalls.distinct j i heq))
      (cache.tmpFor_ne_pathFor (writes j) _)).trans hfile'
  · intro j j' fd' v w h h'
    exact hinv.single j j' fd' v w (hwriter j fd' v h).2 (hwriter j' fd' w h').2
  · intro k fd' got h
    obtain ⟨hlt, hfd', hhash, hgot⟩ := hinv.reading k fd' got h
    exact ⟨hlt.trans_eq hnext.symm, hsettled fd' hfd',
      (congrArg cr.blake3 (congrFun hcontent fd')).trans hhash, (congrFun hcontent fd').symm ▸ hgot⟩

/-- **No step spoils an entry**, where the others leave the cache alone. -/
theorem step (hinv : DiskInv cr cache writes reads s)
    (hs : DiskStep cr cache writes reads s e s') (htidy : Tidy cache writes ⟨s, e, s'⟩) :
    DiskInv cr cache writes reads s' := by
  cases hs with
  | refused _ | failed _ | orphaned _ => exact hinv.stop (by rintro _ _ ⟨⟩)
  | @opened i fs htask hopen =>
      have hcreated := Directory.created_of_createNew hopen
      have hother : ∀ n, s.fs.entry n ≠ none ∨ n ≠ cache.tmpFor (writes i) →
          fs.entry n = s.fs.entry n := by
        intro n hn
        rw [hcreated.entry, Function.update_of_ne]
        rintro rfl
        exact hn.elim (fun h => h hcreated.free) (fun h => h rfl)
      have hfs : DiskInv cr cache writes reads (s.setFs fs) := by
        refine hinv.setFs (hcreated.next ▸ Nat.le_succ _) ?_ ?_ ?_
        · exact fun hash => hother _ (.inr (cache.tmpFor_ne_pathFor _ hash).symm)
        · intro j fd written h
          have hfile := (hinv.writing j fd written h).1
          exact hother _ (.inl (hfile ▸ Option.some_ne_none _))
        · exact fun fd h => hcreated.content_of_lt (hinv.lt_of_inUse h)
      refine hfs.start ?_ ?_ ?_
      · show fs.entry _ = _
        rw [hcreated.entry, Function.update_self]
      · show fs.content _ = _
        rw [hcreated.content, Function.update_self]
      · rintro (⟨hash, h⟩ | hopen)
        · have hentry := hother (cache.pathFor hash) (.inr (cache.tmpFor_ne_pathFor _ hash).symm)
          exact absurd (s.fs.allocated _ _ (hentry.symm.trans h)) (Nat.lt_irrefl _)
        · exact absurd (hinv.lt_of_inUse (.inr hopen)) (Nat.lt_irrefl _)
  | wrote htask hn => exact hinv.advance htask hn
  | renamed htask hrename => exact (hinv.rename hcalls htask hrename).1
  | @cleaned i htask =>
      have hfs : DiskInv cr cache writes reads
          (s.setFs (s.fs.remove (cache.tmpFor (writes i)))) := by
        refine hinv.setFs le_rfl ?_ ?_ (fun _ _ => rfl)
        · exact fun hash => Directory.entry_remove_of_ne (cache.tmpFor_ne_pathFor _ hash).symm
        · intro j fd written h
          refine Directory.entry_remove_of_ne fun heq => ?_
          rw [hcalls.distinct j i heq, htask] at h
          cases h
      exact hfs.stop (by rintro _ _ ⟨⟩)
  | @found k fd htask hlookup =>
      refine hinv.setReader (by rintro ⟨⟩) ?_
      rintro fd' got ⟨⟩
      cases he : s.fs.entry (cache.pathFor (reads k)) with
      | none =>
          rw [Directory.lookup_none he] at hlookup
          cases hlookup
      | some e =>
          obtain ⟨fd', rfl, hhash, hfd'⟩ := hinv.entries _ _ he
          rw [Directory.lookup_file he] at hlookup
          cases hlookup
          exact ⟨s.fs.allocated _ _ he, hfd', hhash, List.nil_prefix⟩
  | missed _ _ | ioError _ | hit _ _ _ | kept _ =>
      exact hinv.setReader (by rintro ⟨⟩) (by rintro _ _ ⟨⟩)
  | @readSome k fd got n htask =>
      refine hinv.setReader (by rintro ⟨⟩) ?_
      rintro fd' got' ⟨⟩
      obtain ⟨hlt, hfd, hhash, rest, hrest⟩ := hinv.reading k fd got htask
      refine ⟨hlt, hfd, hhash, rest.drop n, ?_⟩
      rw [← hrest, List.drop_left, List.append_assoc, List.take_append_drop]
  | @mismatched k fd got htask heof hhash =>
      obtain ⟨-, -, hwhole, hgot⟩ := hinv.reading k fd got htask
      exact absurd (hgot.eq_of_length_le heof ▸ hwhole) hhash
  | @evicted k htask => exact absurd htask (hinv.evicting k)
  | outside hnext =>
      obtain ⟨hentry, htmp, hcontent⟩ := htidy rfl
      exact hinv.setFs hnext hentry (fun i _ _ _ => htmp i) hcontent

end

end DiskInv

section

variable {hash hash' : PackHash} {got bytes : Bytes} {files : PackHash → Option Bytes}

omit [DecidableEq ι] [DecidableEq κ] in
theorem DiskInv.read_of_entry (hinv : DiskInv cr cache writes reads s)
    (h : s.fs.entry (cache.pathFor hash) = some (.file fd)) :
    (s.cached cache).read cr hash = some (s.fs.content fd) := by
  obtain ⟨fd', hfd', hhash, -⟩ := hinv.entries _ _ h
  cases hfd'
  show ((s.fs.lookup _).map _).filter _ = _
  rw [Directory.lookup_file h, Option.map_some, Option.filter_some,
    if_pos (decide_eq_true hhash)]

omit [DecidableEq ι] [DecidableEq κ] in
theorem DiskInv.entry_of_lookup (hinv : DiskInv cr cache writes reads s)
    (h : s.fs.lookup (cache.pathFor hash) = some fd) :
    s.fs.entry (cache.pathFor hash) = some (.file fd) := by
  cases he : s.fs.entry (cache.pathFor hash) with
  | none =>
      rw [Directory.lookup_none he] at h
      cases h
  | some e =>
      obtain ⟨fd', rfl, -⟩ := hinv.entries _ _ he
      rw [Directory.lookup_file he] at h
      cases h
      rfl

/-- The content of a file in use that nobody writes stays. -/
theorem DiskInv.content_step (hinv : DiskInv cr cache writes reads s)
    (hs : DiskStep cr cache writes reads s e s') (htidy : Tidy cache writes ⟨s, e, s'⟩)
    (huse : s.InUse cache fd) (hfd : s.Settled fd) : s'.fs.content fd = s.fs.content fd := by
  cases hs with
  | opened htask hopen =>
      exact (Directory.created_of_createNew hopen).content_of_lt (hinv.lt_of_inUse huse)
  | @wrote i fd' n written htask hn =>
      refine Directory.content_write_of_ne ?_
      rintro rfl
      exact hfd i written htask
  | renamed htask hrename => exact congrFun (Directory.rename_frame hrename).1 fd
  | outside hnext => exact (htidy rfl).2.2 fd huse
  | refused _ | failed _ | cleaned _ | orphaned _ | found _ _ | missed _ _ | ioError _
  | readSome _ | hit _ _ _ | mismatched _ _ _ | evicted _ | kept _ => rfl

/-- A reader that has a file open found it in this step, or had it open before. -/
theorem reading_step (hs : DiskStep cr cache writes reads s e s')
    (h : s'.reader k = .reading fd got) :
    (e = .found k ∧ s'.fs = s.fs ∧ s.fs.lookup (cache.pathFor (reads k)) = some fd) ∨
      ∃ got', s.reader k = .reading fd got' := by
  cases hs with
  | found htask hlookup =>
      rw [DiskState.reader_setReader] at h
      split at h
      · next hk =>
          cases h
          exact .inl ⟨hk ▸ rfl, rfl, hk ▸ hlookup⟩
      · exact .inr ⟨_, h⟩
  | readSome htask =>
      rw [DiskState.reader_setReader] at h
      split at h
      · next hk =>
          cases h
          exact .inr ⟨_, hk ▸ htask⟩
      · exact .inr ⟨_, h⟩
  | missed _ _ | ioError _ | hit _ _ _ | mismatched _ _ _ | evicted _ | kept _ =>
      rw [DiskState.reader_setReader] at h
      split at h
      · cases h
      · exact .inr ⟨_, h⟩
  | refused _ | opened _ _ | wrote _ _ | failed _ | renamed _ _ | cleaned _ | orphaned _
  | outside _ => exact .inr ⟨_, h⟩

end

section

variable (hcalls : ProperCalls cr cache writes)

include hcalls

/-- What a reader has open is what the cache held when it found the entry. -/
structure ReadInv (cr : Crypto) (cache : PackCache) (writes : ι → WriteCall)
    (reads : κ → PackHash) (tr : DiskTrace ι κ) (s : DiskState ι κ) : Prop
    extends DiskInv cr cache writes reads s where
  found : ∀ k fd got, s.reader k = .reading fd got → ∃ t ∈ tr, t.event = .found k ∧
    (t.before.cached cache).read cr (reads k) = some (s.fs.content fd)

theorem ReadInv.step (hinv : ReadInv cr cache writes reads tr s)
    (hs : DiskStep cr cache writes reads s e s') (htidy : Tidy cache writes ⟨s, e, s'⟩) :
    ReadInv cr cache writes reads (tr ++ [⟨s, e, s'⟩]) s' where
  toDiskInv := hinv.toDiskInv.step hcalls hs htidy
  found k fd got h := by
    rcases reading_step hs h with ⟨he, hfs, hlookup⟩ | ⟨got', h'⟩
    · refine ⟨_, List.mem_append_right _ (List.mem_singleton_self _), he, ?_⟩
      show (s.cached cache).read cr (reads k) = some (s'.fs.content fd)
      rw [hinv.read_of_entry (hinv.entry_of_lookup hlookup), hfs]
    · obtain ⟨t, ht, he, hread⟩ := hinv.found k fd got' h'
      have hfd := (hinv.reading k fd got' h').2.1
      refine ⟨t, List.mem_append_left _ ht, he, ?_⟩
      rw [hread, hinv.content_step hs htidy (.inr (.inr ⟨k, got', h'⟩)) hfd]

end

/-- No call has begun, and the entries that are there are whole packs. -/
structure DiskState.Clean (cr : Crypto) (cache : PackCache) (s : DiskState ι κ) : Prop
    extends s.Initial where
  entries : ∀ hash e, s.fs.entry (cache.pathFor hash) = some e →
    ∃ fd, e = .file fd ∧ cr.blake3 (s.fs.content fd) = hash

omit [DecidableEq ι] [DecidableEq κ] in
theorem DiskState.Clean.inv (hclean : s₀.Clean cr cache) :
    ReadInv cr cache writes reads [] s₀ where
  entries hash e he := by
    obtain ⟨fd, rfl, hhash⟩ := hclean.entries hash e he
    refine ⟨fd, rfl, hhash, fun i written h => ?_⟩
    rw [hclean.writer] at h
    cases h
  writing i fd written h := by
    rw [hclean.writer] at h
    cases h
  single i j fd v w h := by
    rw [hclean.writer] at h
    cases h
  reading k fd got h := by
    rw [hclean.reader] at h
    cases h
  evicting k h := by
    rw [hclean.reader] at h
    cases h
  found k fd got h := by
    rw [hclean.reader] at h
    cases h

/-- The writer is at work, or died at it. -/
def DiskState.AtWork (s : DiskState ι κ) (i : ι) : Prop :=
  (∃ fd written, s.writer i = .writing fd written) ∨ s.writer i = .cleaning

/-- The writer failed, and then failed to remove its temporary file. -/
def Orphaned (tr : DiskTrace ι κ) (s : DiskState ι κ) (i : ι) : Prop :=
  s.writer i = .returned false ∧ ∃ t ∈ tr, t.event = .orphaned i

/-- Who may have left a temporary file. -/
def Leaves (tr : DiskTrace ι κ) (s : DiskState ι κ) (i : ι) : Prop :=
  s.AtWork i ∨ Orphaned tr s i

/-- A step of the cache changed what the name stands for. -/
def Touched (tr : DiskTrace ι κ) (n : String) : Prop :=
  ∃ t ∈ tr, t.event ≠ .outside ∧ t.after.fs.entry n ≠ t.before.fs.entry n

/-- The name is the final one of a pack, and stands for a file with all of it, which nobody
writes. -/
def PackAt (cr : Crypto) (cache : PackCache) (s : DiskState ι κ) (n : String) : Prop :=
  ∃ hash fd, n = cache.pathFor hash ∧ s.fs.entry n = some (.file fd) ∧
    cr.blake3 (s.fs.content fd) = hash ∧ s.Settled fd

omit [DecidableEq ι] [DecidableEq κ] in
theorem Leaves.of_same (h : Leaves tr s i) (hwriter : s'.writer i = s.writer i) :
    Leaves (tr ++ [⟨s, e, s'⟩]) s' i := by
  rcases h with (⟨fd, written, h⟩ | h) | ⟨h, t, ht, he⟩
  · exact .inl (.inl ⟨fd, written, hwriter.trans h⟩)
  · exact .inl (.inr (hwriter.trans h))
  · exact .inr ⟨hwriter.trans h, t, List.mem_append_left _ ht, he⟩

/-- A step that keeps a temporary file keeps the one who leaves it. -/
theorem DiskInv.leaves_step
    (hcalls : ProperCalls cr cache writes)
    (hinv : DiskInv cr cache writes reads s) (hs : DiskStep cr cache writes reads s e s')
    (htidy : Tidy cache writes ⟨s, e, s'⟩)
    (hleaves : ∀ i, s.fs.entry (cache.tmpFor (writes i)) ≠ none → Leaves tr s i)
    (hentry : s'.fs.entry (cache.tmpFor (writes i)) ≠ none) :
    Leaves (tr ++ [⟨s, e, s'⟩]) s' i := by
  have hlast : (⟨s, e, s'⟩ : Transition _ _) ∈ tr ++ [⟨s, e, s'⟩] :=
    List.mem_append_right _ (List.mem_singleton_self _)
  have hother : ∀ {j : ι} {task : WriteTask} {fs : Directory String}, i ≠ j →
      ((s.setFs fs).setWriter j task).writer i = s.writer i :=
    fun h => Function.update_of_ne h ..
  cases hs with
  | @refused j htask =>
      by_cases hij : i = j
      · subst hij
        rcases hleaves i hentry with (⟨fd, written, h⟩ | h) | ⟨h, -⟩ <;>
          cases htask.symm.trans h
      · exact (hleaves i hentry).of_same (Function.update_of_ne hij ..)
  | @opened j fs htask hopen =>
      by_cases hij : i = j
      · subst hij
        exact .inl (.inl ⟨_, _, Function.update_self ..⟩)
      · refine Leaves.of_same (hleaves i ?_) (hother hij)
        rw [DiskState.fs_setWriter, DiskState.fs_setFs,
          (Directory.created_of_createNew hopen).entry,
          Function.update_of_ne fun heq => hij (hcalls.distinct i j heq)] at hentry
        exact hentry
  | @wrote j fd n written htask hn =>
      by_cases hij : i = j
      · subst hij
        exact .inl (.inl ⟨_, _, Function.update_self ..⟩)
      · exact Leaves.of_same (hleaves i hentry) (hother hij)
  | @failed j htask =>
      by_cases hij : i = j
      · subst hij
        exact .inl (.inr (Function.update_self ..))
      · exact (hleaves i hentry).of_same (Function.update_of_ne hij ..)
  | @renamed j fd fs htask hrename =>
      have hfile := (hinv.writing j fd _ htask).1
      have hfree : s.fs.entry (cache.pathFor (writes j).hash) ≠ some (.file fd) := by
        intro he
        obtain ⟨fd', hfd', -, hsettled⟩ := hinv.entries _ _ he
        cases hfd'
        exact hsettled j _ htask
      have hgone := (Directory.rename_file
        (cache.tmpFor_ne_pathFor (writes j) (writes j).hash) hfile hfree hrename).1
      have hij : i ≠ j := by
        rintro rfl
        exact hentry hgone
      refine Leaves.of_same (hleaves i fun h => hentry ?_) (hother hij)
      exact ((Directory.rename_frame hrename).2.2 _ (fun heq => hij (hcalls.distinct i j heq))
        (cache.tmpFor_ne_pathFor _ _)).trans h
  | @cleaned j htask =>
      have hij : i ≠ j := by
        rintro rfl
        exact hentry Directory.entry_remove_self
      refine Leaves.of_same (hleaves i fun h => hentry ?_) (hother hij)
      exact (Directory.entry_remove_of_ne fun heq => hij (hcalls.distinct i j heq)).trans h
  | @orphaned j htask =>
      by_cases hij : i = j
      · subst hij
        exact .inr ⟨Function.update_self .., _, hlast, rfl⟩
      · exact (hleaves i hentry).of_same (Function.update_of_ne hij ..)
  | outside hnext =>
      exact (hleaves i ((htidy rfl).2.1 i ▸ hentry)).of_same rfl
  | @evicted k htask => exact absurd htask (hinv.evicting k)
  | found _ _ | missed _ _ | ioError _ | readSome _ | hit _ _ _ | mismatched _ _ _ | kept _ =>
      exact (hleaves i hentry).of_same rfl

/-- In every state of a run that begins without any, a temporary file belongs to a writer that
is at work (or died at it), or to one that could not remove it. -/
theorem leaves_run (hcalls : ProperCalls cr cache writes) (hclean : s₀.Clean cr cache)
    (hswept : ∀ i, s₀.fs.entry (cache.tmpFor (writes i)) = none)
    (hrun : Run (DiskStep cr cache writes reads) s₀ tr s)
    (htidy : ∀ t ∈ tr, Tidy cache writes t) : DiskInv cr cache writes reads s ∧
      ∀ i, s.fs.entry (cache.tmpFor (writes i)) ≠ none → Leaves tr s i := by
  refine hrun.history (Q := Tidy cache writes) (fun tr s => DiskInv cr cache writes reads s ∧
    ∀ i, s.fs.entry (cache.tmpFor (writes i)) ≠ none → Leaves tr s i) ?_ ?_ htidy
  · exact ⟨hclean.inv.toDiskInv, fun i h => absurd (hswept i) h⟩
  · rintro tr s e s' ⟨hinv, hleaves⟩ hs ht
    exact ⟨hinv.step hcalls hs ht,
      fun i h => hinv.leaves_step hcalls hs ht hleaves h⟩

/-- A step of the cache touches temporary names and final ones. -/
theorem Touched.name (hinit : s₀.Initial) (hrun : Run (DiskStep cr cache writes reads) s₀ tr s)
    {n : String} (h : Touched tr n) :
    (∃ i, n = cache.tmpFor (writes i)) ∨ ∃ hash, n = cache.pathFor hash := by
  obtain ⟨t, ht, he, hne⟩ := h
  obtain ⟨before, after, hsplit⟩ := List.append_of_mem ht
  obtain ⟨hbefore, hs, -⟩ := hrun.split hsplit
  rcases ((hinit.madeInv hbefore).confined hs he).entry n hne with
    ⟨i, -, -, hn⟩ | ⟨i, -, hn⟩ | ⟨i, -, hn | hn⟩ | ⟨k, -, hn, -⟩
  · exact .inl ⟨i, hn⟩
  · exact .inl ⟨i, hn⟩
  · exact .inl ⟨i, hn⟩
  · exact .inr ⟨_, hn⟩
  · exact .inr ⟨_, hn⟩

omit [DecidableEq ι] [DecidableEq κ] in
/-- Where nobody else is at work, a name that has changed was touched. -/
theorem touched_of_ne {step : DiskState ι κ → DiskEvent ι κ → DiskState ι κ → Prop}
    (hrun : Run step s₀ tr s) (hinside : ∀ t ∈ tr, t.event ≠ .outside) {n : String}
    (h : s.fs.entry n ≠ s₀.fs.entry n) : Touched tr n := by
  refine hrun.history (Q := fun t => t.event ≠ .outside)
    (fun tr s => s.fs.entry n ≠ s₀.fs.entry n → Touched tr n) (fun h => absurd rfl h) ?_ hinside h
  intro tr s e s' hinv _ he hne
  by_cases hkept : s'.fs.entry n = s.fs.entry n
  · obtain ⟨t, ht, htouched⟩ := hinv (hkept ▸ hne)
    exact ⟨t, List.mem_append_left _ ht, htouched⟩
  · exact ⟨_, List.mem_append_right _ (List.mem_singleton_self _), he, hkept⟩

/-- **The cache tidies up.**  When no writer is at work any more, then of the names that the
cache has touched each one that is still there is the final name of a whole pack, or the
temporary name of a writer that failed and could not remove its file. -/
theorem disk_leaves (hcalls : ProperCalls cr cache writes) (hclean : s₀.Clean cr cache)
    (hswept : ∀ i, s₀.fs.entry (cache.tmpFor (writes i)) = none)
    (hrun : Run (DiskStep cr cache writes reads) s₀ tr s)
    (htidy : ∀ t ∈ tr, Tidy cache writes t) (hidle : ∀ i, ¬ s.AtWork i) {n : String}
    (htouched : Touched tr n) (h : s.fs.entry n ≠ none) :
    PackAt cr cache s n ∨ ∃ i, n = cache.tmpFor (writes i) ∧ Orphaned tr s i := by
  obtain ⟨hinv, hleaves⟩ := leaves_run hcalls hclean hswept hrun htidy
  rcases htouched.name hclean.toInitial hrun with ⟨i, rfl⟩ | ⟨hash, rfl⟩
  · exact .inr ⟨i, rfl, (hleaves i h).resolve_left (hidle i)⟩
  · obtain ⟨e, he⟩ := Option.ne_none_iff_exists'.mp h
    obtain ⟨fd, rfl, hhash, hsettled⟩ := hinv.entries hash e he
    exact .inl ⟨hash, fd, rfl, he, hhash, hsettled⟩

/-! ## A call that nobody disturbs -/

/-- A writer can finish, if its temporary file is not there. -/
theorem DiskInv.exists_write
    (hcalls : ProperCalls cr cache writes)
    (hinv : DiskInv cr cache writes reads s) (htask : s.writer i = .starting)
    (hfree : s.fs.entry (cache.tmpFor (writes i)) = none) :
    ∃ tr s', Run (DiskStep cr cache writes reads) s tr s' ∧
      tr.map (·.event) = [.opened i, .wrote i (writes i).bytes.length, .renamed i] ∧
      DiskInv cr cache writes reads s' ∧
      (∃ fd, s'.fs.entry (cache.pathFor (writes i).hash) = some (.file fd) ∧
        s'.fs.content fd = (writes i).bytes) ∧
      s'.reader = s.reader ∧ s'.writer = Function.update s.writer i (.returned true) := by
  obtain ⟨fs, hopen⟩ := Directory.exists_createNew hfree
  have hs : DiskStep cr cache writes reads s (.opened i) _ := .opened htask hopen
  have hinv := hinv.step hcalls hs (by rintro ⟨⟩)
  generalize hs₁ : (s.setFs fs).setWriter i (.writing s.fs.next 0) = s₁ at hs hinv
  have htask₁ : s₁.writer i = .writing s.fs.next 0 := hs₁ ▸ Function.update_self ..
  have hreader₁ : s₁.reader = s.reader := hs₁ ▸ rfl
  have hwriter₁ : s₁.writer = Function.update s.writer i (.writing s.fs.next 0) := hs₁ ▸ rfl
  have hs' : DiskStep cr cache writes reads s₁ (.wrote i (writes i).bytes.length) _ :=
    .wrote htask₁ (Nat.zero_add _).le
  have hinv := hinv.step hcalls hs' (by rintro ⟨⟩)
  rw [Nat.zero_add] at hs' hinv
  generalize hs₂ : (s₁.setFs (s₁.fs.write s.fs.next 0 _)).setWriter i
    (.writing s.fs.next (writes i).bytes.length) = s₂ at hs' hinv
  have htask₂ : s₂.writer i = .writing s.fs.next (writes i).bytes.length :=
    hs₂ ▸ Function.update_self ..
  have hreader₂ : s₂.reader = s₁.reader := hs₂ ▸ rfl
  have hwriter₂ : s₂.writer = Function.update s₁.writer i
    (.writing s.fs.next (writes i).bytes.length) := hs₂ ▸ rfl
  have hfile := (hinv.writing i _ _ htask₂).1
  obtain ⟨fs', hrename⟩ := Directory.exists_rename (hfile ▸ Option.some_ne_none _)
  obtain ⟨hinv', hentry, hbytes⟩ := hinv.rename hcalls htask₂ hrename
  refine ⟨_, _, ((Run.nil.snoc hs).snoc hs').snoc (.renamed htask₂ hrename), rfl, hinv',
    ⟨_, hentry, hbytes⟩, hreader₂.trans hreader₁, ?_⟩
  show Function.update s₂.writer i _ = _
  rw [hwriter₂, hwriter₁, Function.update_idem, Function.update_idem]

end

/-! ## Two writers of one pack, and a reader -/

def sampleCache : PackCache := ⟨"packs"⟩

def samplePack : Bytes := [7]

def sampleWrites (i : Bool) : WriteCall where
  hash := Sample.hash samplePack
  bytes := samplePack
  pid := if i then 2 else 1
  suffix := zeros 8

def sampleReads (_ : Unit) : PackHash := Sample.hash samplePack

def sampleStart : DiskState Bool Unit where
  fs := ⟨fun _ => none, fun _ => [], 0, by intro n i h; cases h⟩
  writer _ := .starting
  reader _ := .starting

theorem sampleWrites_distinct (i j : Bool)
    (h : sampleCache.tmpFor (sampleWrites i) = sampleCache.tmpFor (sampleWrites j)) : i = j := by
  have hpid : toString (sampleWrites i).pid = toString (sampleWrites j).pid := by
    have h := (String.append_left_inj ".tmp").mp (join_inj h)
    have h := (String.append_left_inj (hexEncode (zeros 8).toList)).mp h
    exact (String.append_right_inj _).mp ((String.append_left_inj ".").mp h)
  cases i <;> cases j
  · rfl
  · exact absurd hpid (by decide)
  · exact absurd hpid (by decide)
  · rfl

theorem sampleWrites_proper : ProperCalls Sample.unsigned sampleCache sampleWrites :=
  ⟨sampleWrites_distinct, fun _ => rfl⟩

theorem sampleStart_clean : sampleStart.Clean Sample.unsigned sampleCache where
  writer _ := rfl
  reader _ := rfl
  entries hash e h := by cases h

/-- One writer is done while the other has its file open. -/
theorem sample_written : ∃ tr s, Run (DiskStep Sample.unsigned sampleCache sampleWrites sampleReads)
    sampleStart tr s ∧
    tr.map (·.event) = [.opened true, .opened false, .wrote false 1, .renamed false] ∧
    DiskInv Sample.unsigned sampleCache sampleWrites sampleReads s ∧
    (∃ fd, s.fs.entry (sampleCache.pathFor (Sample.hash samplePack)) = some (.file fd) ∧
      s.fs.content fd = samplePack) ∧
    s.reader = sampleStart.reader ∧
    s.writer true = .writing 0 0 ∧ s.writer false = .returned true := by
  obtain ⟨fs, hopen⟩ := Directory.exists_createNew
    (show sampleStart.fs.entry (sampleCache.tmpFor (sampleWrites true)) = none from rfl)
  have hfree : fs.entry (sampleCache.tmpFor (sampleWrites false)) = none := by
    rw [(Directory.created_of_createNew hopen).entry, Function.update_of_ne]
    · rfl
    · intro h
      cases sampleWrites_distinct _ _ h
  have hs : DiskStep Sample.unsigned sampleCache sampleWrites sampleReads sampleStart
    (.opened true) ((sampleStart.setFs fs).setWriter true (.writing 0 0)) := .opened rfl hopen
  have hinv := sampleStart_clean.inv.toDiskInv.step sampleWrites_proper hs (by rintro ⟨⟩)
  obtain ⟨tr, s, hwrite, htr, hinv', hentry, hreader, hwriter⟩ :=
    hinv.exists_write sampleWrites_proper (i := false) rfl hfree
  refine ⟨_, s, (Run.nil.snoc hs).trans hwrite, ?_, hinv', hentry, hreader, ?_, ?_⟩
  · rw [List.map_append, htr]
    rfl
  · rw [hwriter]
    rfl
  · rw [hwriter]
    rfl

/-- The other writer fails instead, and so does the removal of its file. -/
theorem sample_orphaned :
    ∃ tr s, Run (DiskStep Sample.unsigned sampleCache sampleWrites sampleReads) sampleStart tr s ∧
      tr.map (·.event) = [.opened true, .opened false, .wrote false 1, .renamed false,
        .failed true, .orphaned true] ∧
      (∀ i, ¬ s.AtWork i) ∧ s.fs.entry (sampleCache.tmpFor (sampleWrites true)) ≠ none ∧
      s.fs.entry (sampleCache.pathFor (Sample.hash samplePack)) ≠ none := by
  obtain ⟨tr, s, hwrite, htr, hinv, ⟨fd, hentry, -⟩, -, htrue, hfalse⟩ := sample_written
  have hs : DiskStep Sample.unsigned sampleCache sampleWrites sampleReads s (.failed true)
    (s.setWriter true .cleaning) := .failed (.inr ⟨_, _, htrue⟩)
  have hs' : DiskStep Sample.unsigned sampleCache sampleWrites sampleReads
    (s.setWriter true .cleaning) (.orphaned true)
    ((s.setWriter true .cleaning).setWriter true (.returned false)) :=
      .orphaned (DiskState.writer_setWriter.trans (if_pos rfl))
  refine ⟨_, _, (hwrite.snoc hs).snoc hs', ?_, ?_, ?_, ?_⟩
  · rw [List.map_append, List.map_append, htr]
    rfl
  · intro i hwork
    have htask : ((s.setWriter true .cleaning).setWriter true (.returned false)).writer i =
        .returned (!i) := by
      cases i
      · exact hfalse
      · rfl
    rcases hwork with ⟨fd, written, h⟩ | h <;> cases htask.symm.trans h
  · exact (hinv.writing true 0 0 htrue).1 ▸ Option.some_ne_none _
  · exact hentry ▸ Option.some_ne_none _

end packCache

/-! ## Three runs -/

section

open packCache

/-- One pack is there, and the other writer's temporary file. -/
theorem disk_leaves_orphan : ∃ (tr : DiskTrace Bool Unit) (s : DiskState Bool Unit),
    tr.map (·.event) = [.opened true, .opened false, .wrote false 1, .renamed false, .failed true,
      .orphaned true] ∧
    s.fs.entry (sampleCache.tmpFor (sampleWrites true)) ≠ none ∧
    s.fs.entry (sampleCache.pathFor (Sample.hash samplePack)) ≠ none ∧
    ∀ n, s.fs.entry n ≠ none → PackAt Sample.unsigned sampleCache s n ∨
      ∃ i, n = sampleCache.tmpFor (sampleWrites i) ∧ Orphaned tr s i := by
  obtain ⟨tr, s, hrun, htr, hidle, htmp, hpath⟩ := sample_orphaned
  have hinside : ∀ t ∈ tr, t.event ≠ .outside := by
    intro t ht he
    have hmem : DiskEvent.outside ∈ tr.map (·.event) := he ▸ List.mem_map_of_mem ht
    rw [htr] at hmem
    simp at hmem
  exact ⟨tr, s, htr, htmp, hpath, fun n h =>
    disk_leaves sampleWrites_proper sampleStart_clean (fun _ => rfl) hrun
      (fun t ht he => absurd he (hinside t ht)) hidle (touched_of_ne hrun hinside h) h⟩

end

end FreenetGit
