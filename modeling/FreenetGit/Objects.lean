/-
# `FreenetGit.Objects` — git objects and the text of a commit

The objects a name can stand for (`GitObject`), the names an object links to, and
the text of a commit object.  `parentLines_bytes`: from the text of a well-formed
commit exactly the names of its `parent` headers are read, whatever the other
headers and the message hold.
-/
import FreenetGit.Git

namespace FreenetGit

open Lib

/-! ## Objects -/

/-- A header of a commit object other than `tree` and `parent`: its value may go
on in further lines, which start with a space. -/
structure Header where
  name : Bytes
  value : Bytes
  more : List Bytes
  plain : 10 ∉ name ∧ 32 ∉ name
  other : name ≠ ascii "parent".toList
  value_line : 10 ∉ value
  more_line : ∀ l ∈ more, 10 ∉ l

def Header.lines (h : Header) : List Bytes :=
  (h.name ++ 32 :: h.value) :: h.more.map (32 :: ·)

structure CommitObject where
  tree : CommitHash
  parents : List CommitHash
  headers : List Header
  message : Bytes

/-- The lines of a commit object before its empty line. -/
def CommitObject.headerLines (c : CommitObject) : List Bytes :=
  ascii ("tree " ++ hexEncodeCommit c.tree).toList ::
    (c.parents.map fun p => ascii ("parent " ++ hexEncodeCommit p).toList) ++ c.headers.flatMap Header.lines

/-- What `git cat-file commit` prints. -/
def CommitObject.text (c : CommitObject) : Bytes :=
  (c.headerLines.flatMap (· ++ [10])) ++ 10 :: c.message

/-- A name as it stands in a header: hexadecimal digits of either case. -/
structure HexName where
  text : String
  length_eq : text.toList.length = 40
  hex : ∀ c ∈ text.toList, IsHexDigit c

/-- The name that the digits stand for. -/
def HexName.hash (n : HexName) : CommitHash :=
  ((hexPairs hexPair n.text.toList).bind (toArray? 20)).getD (zeros 20)

/-- A well-formed commit object, as it may be written. -/
structure CommitText where
  tree : HexName
  parents : List HexName
  headers : List Header
  message : Bytes

def CommitText.headerLines (t : CommitText) : List Bytes :=
  ascii ("tree " ++ t.tree.text).toList ::
    (t.parents.map fun p => ascii ("parent " ++ p.text).toList) ++ t.headers.flatMap Header.lines

def CommitText.bytes (t : CommitText) : Bytes :=
  (t.headerLines.flatMap (· ++ [10])) ++ 10 :: t.message

/-- An object; the entries of a tree are those that `rev-list --objects` lists,
without submodules. -/
inductive GitObject where
  | commit (c : CommitObject)
  | tree (entries : List CommitHash)
  | blob
  | tag (target : CommitHash)

/-- The names an object links to. -/
def GitObject.links : GitObject → List CommitHash
  | commit c => c.tree :: c.parents
  | tree entries => entries
  | blob => []
  | tag target => [target]

/-- The names that a walk of the history goes on to. -/
def GitObject.history : GitObject → List CommitHash
  | commit c => c.parents
  | tag target => [target]
  | _ => []

/-- The object that each name stands for, stored anywhere or nowhere. -/
abbrev ObjectGraph := CommitHash → GitObject

/-- `b` is reachable from `a`. -/
def Reach (g : ObjectGraph) : CommitHash → CommitHash → Prop :=
  Relation.ReflTransGen fun a b => b ∈ (g a).links

/-- `b` is met from `a` by peeling tags and following parents. -/
def History (g : ObjectGraph) : CommitHash → CommitHash → Prop :=
  Relation.ReflTransGen fun a b => b ∈ (g a).history

theorem history_subset_links (o : GitObject) : ∀ c ∈ o.history, c ∈ o.links := by
  intro c hc
  cases o with
  | commit co => exact List.mem_cons_of_mem _ hc
  | tag t => exact hc
  | tree _ => cases hc
  | blob => cases hc

theorem History.reach {g : ObjectGraph} {a b : CommitHash} (h : History g a b) : Reach g a b :=
  Relation.ReflTransGen.mono (fun _ _ hl => history_subset_links _ _ hl) _ _ h

/-- `c` peels through objects of `S` to a commit. -/
inductive PeelsIn (g : ObjectGraph) (S : Set CommitHash) : CommitHash → CommitObject → Prop
  | commit {c : CommitHash} {co : CommitObject} (h : c ∈ S) (hc : g c = .commit co) : PeelsIn g S c co
  | tag {c t : CommitHash} {co : CommitObject} (h : c ∈ S) (hc : g c = .tag t)
      (ht : PeelsIn g S t co) : PeelsIn g S c co

section

variable {g : ObjectGraph} {S T : Set CommitHash} {c : CommitHash} {co : CommitObject}

theorem PeelsIn.mem (h : PeelsIn g S c co) : c ∈ S := by
  cases h with
  | commit h _ => exact h
  | tag h _ _ => exact h

theorem PeelsIn.mono (hST : S ⊆ T) (h : PeelsIn g S c co) : PeelsIn g T c co := by
  induction h with
  | commit h hc => exact .commit (hST h) hc
  | tag h hc _ ih => exact .tag (hST h) hc ih

theorem PeelsIn.unique {co' : CommitObject} (h : PeelsIn g S c co) (h' : PeelsIn g T c co') :
    co = co' := by
  induction h with
  | commit _ hc =>
      cases h' with
      | commit _ hc' =>
          rw [hc] at hc'
          cases hc'
          rfl
      | tag _ hc' _ =>
          rw [hc] at hc'
          cases hc'
  | tag _ hc _ ih =>
      cases h' with
      | commit _ hc' =>
          rw [hc] at hc'
          cases hc'
      | tag _ hc' ht' =>
          rw [hc] at hc'
          cases hc'
          exact ih ht'

theorem PeelsIn.of_tag {t : CommitHash} (h : PeelsIn g S c co) (hc : g c = .tag t) :
    PeelsIn g S t co := by
  cases h with
  | commit _ hc' =>
      rw [hc] at hc'
      cases hc'
  | tag _ hc' ht =>
      rw [hc] at hc'
      cases hc'
      exact ht

/-- The commit that `c` peels to. -/
theorem PeelsIn.exists_commit (h : PeelsIn g S c co) : ∃ x, History g c x ∧ g x = .commit co := by
  induction h with
  | commit _ hc => exact ⟨_, .refl, hc⟩
  | tag _ hc _ ih =>
      obtain ⟨x, hx, hco⟩ := ih
      exact ⟨x, .head (by rw [hc]; exact List.mem_singleton_self _) hx, hco⟩

/-- It peels through what it reaches that peels to the same commit. -/
theorem PeelsIn.of_reach (h : PeelsIn g S c co)
    (hT : ∀ x, Reach g c x → PeelsIn g S x co → x ∈ T) : PeelsIn g T c co := by
  induction h with
  | commit h hc => exact .commit (hT _ .refl (.commit h hc)) hc
  | @tag c t co h hc ht ih =>
      have hlink : t ∈ (g c).links := by
        rw [hc]
        exact List.mem_singleton_self _
      exact .tag (hT c .refl (.tag h hc ht)) hc (ih fun x hx hxp => hT x (.head hlink hx) hxp)

/-- The parents of the commit that `c` peels to are in its history. -/
theorem PeelsIn.history (h : PeelsIn g S c co) {p : CommitHash} (hp : p ∈ co.parents) :
    History g c p := by
  induction h with
  | commit _ hc => exact .single (by rw [hc]; exact hp)
  | tag _ hc _ ih => exact .head (by rw [hc]; exact List.mem_singleton_self _) (ih hp)

end

/-! ## Reading the parents of a commit -/

/-- The words that start a line of a commit object. -/
def HeaderWord (s : String) : Prop := ∀ c ∈ s.toList, c.toNat < 0x80 ∧ c ≠ '\n' ∧ c ≠ '\r'

theorem headerWord_parent : HeaderWord "parent " := by simp [HeaderWord]

theorem headerWord_tree : HeaderWord "tree " := by simp [HeaderWord]

theorem isHexDigit_spec : ∀ n < 128, IsHexDigit (Char.ofNat n) →
    Char.ofNat n ≠ '\n' ∧ Char.ofNat n ≠ '\r' ∧ isWhitespace (Char.ofNat n) = false := by
  unfold IsHexDigit
  decide

theorem HexName.mem_text {n : HexName} {c : Char} (h : c ∈ n.text.toList) :
    c.toNat < 0x80 ∧ c ≠ '\n' ∧ c ≠ '\r' ∧ isWhitespace c = false ∧ c.utf8Size = 1 := by
  have hlt := lt_of_isHexDigit (n.hex c h)
  have hspec := isHexDigit_spec c.toNat hlt
  rw [Char.ofNat_toNat] at hspec
  obtain ⟨hnl, hcr, hspace⟩ := hspec (n.hex c h)
  exact ⟨hlt, hnl, hcr, hspace, utf8Size_of_isHexDigit (n.hex c h)⟩

theorem HexName.hexPairs_text (n : HexName) :
    hexPairs hexPair n.text.toList = some n.hash.toList := by
  obtain ⟨bs, hbs⟩ : ∃ bs, hexPairs hexPair n.text.toList = some bs := by
    refine (exists_hexPairs _ _).mpr ⟨by rw [n.length_eq], fun p hp => hexPair_isSome.mpr ?_⟩
    exact ⟨n.hex _ (fst_mem_of_mem_pairsOf hp), n.hex _ (snd_mem_of_mem_pairsOf hp)⟩
  have hlen : bs.length = 20 := by
    have h := length_of_hexPairs hbs
    rw [n.length_eq] at h
    omega
  obtain ⟨v, hv⟩ : ∃ v, toArray? 20 bs = some v := ⟨_, dif_pos hlen⟩
  rw [hash, hbs, Option.bind_some, hv]
  exact congrArg some (length_of_toArray? hv)

/-- Digits are read two at a time. -/
theorem parentBytes_of_hexPairs (sha : List Char) : ∀ {cs : List Char} {bs : Bytes},
    hexPairs hexPair cs = some bs → parentBytes sha cs = .ok bs
  | [], _, h => by
      cases h
      rfl
  | [_], _, h => by cases h
  | c :: d :: cs, _, h => by
      have hhex := isHexDigit_of_hexPairs h
      obtain ⟨n, hn, h⟩ := Option.bind_eq_some_iff.mp h
      obtain ⟨bs, hbs, rfl⟩ := Option.map_eq_some_iff.mp h
      obtain ⟨hc, hd⟩ := hexPair_isSome.mp (Option.isSome_iff_exists.mpr ⟨n, hn⟩)
      have hradix : radixPair c d = some n := by
        rw [radixPair, if_neg fun hp : c = '+' => not_isHexDigit_plus (hp ▸ hc), hn]
      rw [parentBytes, if_pos (utf8Size_of_isHexDigit hc), if_pos (utf8Size_of_isHexDigit hd),
        hradix]
      dsimp only
      rw [parentBytes_of_hexPairs sha hbs]
      rfl

/-- The value of a `parent` header in hexadecimal. -/
theorem parentHash_hex (n : HexName) : parentHash n.text.toList = .ok n.hash := by
  have hlen : (n.text.toList.map Char.utf8Size).sum = 40 := by
    have hone : n.text.toList.map Char.utf8Size = List.replicate n.text.toList.length 1 :=
      List.eq_replicate_iff.mpr ⟨List.length_map _, fun k hk => by
        rcases List.mem_map.mp hk with ⟨c, hc, rfl⟩
        exact (HexName.mem_text hc).2.2.2.2⟩
    rw [hone, n.length_eq, List.sum_replicate]
    rfl
  rw [parentHash, if_neg (not_not_intro hlen), parentBytes_of_hexPairs _ n.hexPairs_text]
  dsimp only [Bind.bind, Except.bind]
  rw [toArray?_toList]

/-- A line that is no `parent` header. -/
def Skipped (line : List Char) : Prop := line ≠ [] ∧ ¬ "parent ".toList <+: line

theorem parentLines_skip : ∀ {ls : List (List Char)}, (∀ l ∈ ls, Skipped l) →
    ∀ rest : List (List Char), parentLines (ls ++ rest) = parentLines rest
  | [], _, _ => rfl
  | l :: ls, h, rest => by
      obtain ⟨hne, hpre⟩ := h l List.mem_cons_self
      rw [List.cons_append, parentLines, if_neg hne,
        if_neg fun hp => hpre (List.isPrefixOf_iff_prefix.mp hp)]
      exact parentLines_skip (fun x hx => h x (List.mem_cons_of_mem _ hx)) rest

theorem parentLines_parents {rest : List (List Char)} {qs : List CommitHash}
    (h : parentLines rest = .ok qs) : ∀ ps : List HexName,
    parentLines ((ps.map fun p => ("parent " ++ p.text).toList) ++ rest) =
      .ok (ps.map HexName.hash ++ qs)
  | [] => h
  | p :: ps => by
      have hline : ("parent " ++ p.text).toList = "parent ".toList ++ p.text.toList :=
        String.toList_append
      have hdrop : ("parent ".toList ++ p.text.toList).drop 7 = p.text.toList :=
        List.drop_left' rfl
      have htrim : trim p.text.toList = p.text.toList :=
        trim_eq_self fun c hc => (HexName.mem_text hc).2.2.2.1
      rw [List.map_cons, List.cons_append, parentLines, hline,
        if_neg (List.append_ne_nil_of_left_ne_nil (by decide) _),
        if_pos (List.isPrefixOf_iff_prefix.mpr (List.prefix_append _ _)), hdrop, htrim,
        parentHash_hex, parentLines_parents h ps]
      rfl

/-- What stands before a separator is determined. -/
theorem eq_of_isPrefix_separator {x : UInt8} : ∀ {a b t : Bytes}, x ∉ a → x ∉ b →
    a ++ [x] <+: b ++ x :: t → a = b
  | [], [], _, _, _, _ => rfl
  | [], y :: b, t, _, hb, h => by
      rw [List.nil_append, List.cons_append, List.cons_prefix_cons] at h
      exact absurd (h.1 ▸ List.mem_cons_self) hb
  | y :: a, [], t, ha, _, h => by
      rw [List.nil_append, List.cons_append, List.cons_prefix_cons] at h
      exact absurd (h.1 ▸ List.mem_cons_self) ha
  | y :: a, z :: b, t, ha, hb, h => by
      rw [List.cons_append, List.cons_append, List.cons_prefix_cons] at h
      rw [h.1, eq_of_isPrefix_separator (fun hm => ha (List.mem_cons_of_mem _ hm))
        (fun hm => hb (List.mem_cons_of_mem _ hm)) h.2]

/-- A line of bytes with a space in it that does not begin like a `parent`
header is none after decoding. -/
theorem skipped_lossy {l : Bytes} (hsp : 32 ∈ l) (hpre : ¬ ascii "parent ".toList <+: l) :
    Skipped (stripCr (lossy l)) := by
  constructor
  · obtain ⟨a, b, rfl⟩ := List.append_of_mem hsp
    have hmem : ' ' ∈ lossy (a ++ 32 :: b) := by
      rw [lossy_append_ascii (by decide)]
      exact List.mem_append_right _ List.mem_cons_self
    exact List.ne_nil_of_mem (mem_stripCr (by decide) hmem)
  · intro h
    exact hpre ((isPrefix_lossy_iff fun c hc => (headerWord_parent c hc).1).mp
      (h.trans (stripCr_isPrefix_self _)))

theorem skipped_named {name value : Bytes} (hn : 32 ∉ name) (ho : name ≠ ascii "parent".toList) :
    Skipped (stripCr (lossy (name ++ 32 :: value))) := by
  refine skipped_lossy (List.mem_append_right _ List.mem_cons_self) fun h => ho ?_
  exact (eq_of_isPrefix_separator (a := ascii "parent".toList) (by decide) hn h).symm

theorem Header.skipped (h : Header) : ∀ l ∈ h.lines, Skipped (stripCr (lossy l)) := by
  intro l hl
  rcases List.mem_cons.mp hl with rfl | hl
  · exact skipped_named h.plain.2 h.other
  · rcases List.mem_map.mp hl with ⟨v, -, rfl⟩
    have h : Skipped (stripCr (lossy ([] ++ 32 :: v))) :=
      skipped_named List.not_mem_nil (by decide)
    exact h

/-- The lines of a text that begins with lines given as bytes. -/
theorem lines_lossy_flatMap {rest : Bytes} : ∀ {ls : List Bytes}, (∀ l ∈ ls, 10 ∉ l) →
    lines (lossy (ls.flatMap (· ++ [10]) ++ rest)) =
      (ls.map fun l => stripCr (lossy l)) ++ lines (lossy rest)
  | [], _ => rfl
  | l :: ls, h => by
      rw [List.flatMap_cons, List.append_assoc, List.append_assoc, List.singleton_append,
        lines_lossy (h l List.mem_cons_self),
        lines_lossy_flatMap fun x hx => h x (List.mem_cons_of_mem _ hx)]
      rfl

theorem newline_not_mem_ascii {cs : List Char} (h : ∀ c ∈ cs, c.toNat < 0x80 ∧ c ≠ '\n') :
    10 ∉ ascii cs := by
  intro hm
  rcases List.mem_map.mp hm with ⟨c, hc, h10⟩
  obtain ⟨hlt, hne⟩ := h c hc
  have hn : c.toNat = 10 := by
    have := congrArg UInt8.toNat h10
    rwa [UInt8.toNat_ofNat', Nat.mod_eq_of_lt (by omega)] at this
  exact hne (Char.toNat_inj.mp hn)

theorem headerWord_name {word : String} (hw : HeaderWord word) (n : HexName) :
    HeaderWord (word ++ n.text) := by
  intro x hx
  rw [String.toList_append] at hx
  rcases List.mem_append.mp hx with hx | hx
  · exact hw x hx
  · exact ⟨(HexName.mem_text hx).1, (HexName.mem_text hx).2.1, (HexName.mem_text hx).2.2.1⟩

/-- A line of ASCII text is read as it is. -/
theorem HeaderWord.stripCr_lossy {s : String} (h : HeaderWord s) :
    stripCr (lossy (ascii s.toList)) = s.toList := by
  rw [lossy_ascii fun c hc => (h c hc).1]
  exact stripCr_eq_self fun hm => (h _ hm).2.2 rfl

theorem CommitText.newline_not_mem (t : CommitText) : ∀ l ∈ t.headerLines, 10 ∉ l := by
  have hname : ∀ {word : String} (n : HexName), HeaderWord word →
      10 ∉ ascii (word ++ n.text).toList := fun n hw =>
    newline_not_mem_ascii fun x hx => ⟨(headerWord_name hw n x hx).1, (headerWord_name hw n x hx).2.1⟩
  intro l hl
  rcases List.mem_cons.mp hl with rfl | hl
  · exact hname _ headerWord_tree
  rcases List.mem_append.mp hl with hl | hl
  · rcases List.mem_map.mp hl with ⟨p, -, rfl⟩
    exact hname _ headerWord_parent
  rcases List.mem_flatMap.mp hl with ⟨h, -, hl⟩
  rcases List.mem_cons.mp hl with rfl | hl
  · intro hm
    rcases List.mem_append.mp hm with hm | hm
    · exact h.plain.1 hm
    rcases List.mem_cons.mp hm with hm | hm
    · exact absurd hm (by decide)
    · exact h.value_line hm
  · rcases List.mem_map.mp hl with ⟨v, hv, rfl⟩
    intro hm
    rcases List.mem_cons.mp hm with hm | hm
    · exact absurd hm (by decide)
    · exact h.more_line v hv hm

/-- The parents of a commit are read back from its text, whatever its other headers and
its message hold. -/
theorem parentLines_bytes (t : CommitText) :
    parentLines (lines (lossy t.bytes)) = .ok (t.parents.map HexName.hash) := by
  have hend : lines (lossy (10 :: t.message)) = [] :: lines (lossy t.message) :=
    lines_lossy (l := []) List.not_mem_nil t.message
  have htree : Skipped (stripCr (lossy (ascii ("tree " ++ t.tree.text).toList))) := by
    rw [(headerWord_name headerWord_tree _).stripCr_lossy, String.toList_append]
    refine ⟨List.append_ne_nil_of_left_ne_nil (by decide) _, fun h => ?_⟩
    exact absurd (List.cons_prefix_cons.mp h).1 (by decide)
  have hheaders : ∀ l ∈ (t.headers.flatMap Header.lines).map fun l => stripCr (lossy l),
      Skipped l := by
    intro l hl
    rcases List.mem_map.mp hl with ⟨x, hx, rfl⟩
    rcases List.mem_flatMap.mp hx with ⟨h, -, hx⟩
    exact h.skipped x hx
  have hstop : parentLines ((t.headers.flatMap Header.lines).map (fun l => stripCr (lossy l)) ++
      lines (lossy (10 :: t.message))) = .ok [] := by
    rw [parentLines_skip hheaders, hend]
    rfl
  rw [CommitText.bytes, lines_lossy_flatMap t.newline_not_mem, CommitText.headerLines,
    List.cons_append, List.map_cons, List.map_append, List.map_map, List.cons_append,
    List.append_assoc]
  have hparents : (t.parents.map ((fun l => stripCr (lossy l)) ∘ fun p =>
      ascii ("parent " ++ p.text).toList)) =
        t.parents.map fun p => ("parent " ++ p.text).toList :=
    List.map_congr_left fun p _ => (headerWord_name headerWord_parent p).stripCr_lossy
  rw [hparents]
  have htrees : ∀ l ∈ [stripCr (lossy (ascii ("tree " ++ t.tree.text).toList))],
      Skipped l := fun l hl => List.mem_singleton.mp hl ▸ htree
  have hskip := parentLines_skip htrees
    ((t.parents.map fun p => ("parent " ++ p.text).toList) ++
      ((t.headers.flatMap Header.lines).map (fun l => stripCr (lossy l)) ++
        lines (lossy (10 :: t.message))))
  rw [List.singleton_append] at hskip
  rw [hskip, parentLines_parents hstop, List.append_nil]

/-! ## The text that git writes -/

/-- The digits that git writes. -/
def HexName.of (c : CommitHash) : HexName where
  text := hexEncodeCommit c
  length_eq := by rw [hexEncodeCommit, length_toList_hexEncode, Vector.length_toList]
  hex d hd := by
    obtain ⟨n, hn, rfl⟩ := mem_hexEncode hd
    exact Option.isSome_iff_exists.mpr ⟨n, hexVal_hexDigit n hn⟩

theorem HexName.hash_of (c : CommitHash) : (HexName.of c).hash = c := by
  have h : hexPairs hexPair (hexEncodeCommit c).toList = some c.toList :=
    hexDecode_hexEncode c.toList
  rw [hash, show (HexName.of c).text = hexEncodeCommit c from rfl, h, Option.bind_some,
    toArray?_toList]
  rfl

def CommitObject.toText (c : CommitObject) : CommitText :=
  ⟨.of c.tree, c.parents.map .of, c.headers, c.message⟩

theorem CommitObject.text_eq (c : CommitObject) : c.text = c.toText.bytes := by
  rw [text, headerLines, CommitText.bytes, CommitText.headerLines, toText, List.map_map]
  rfl

/-- **The parents of a commit are read back** from the text that git writes. -/
theorem parentLines_text (c : CommitObject) :
    parentLines (lines (lossy c.text)) = .ok c.parents := by
  rw [c.text_eq, parentLines_bytes]
  have hid : c.parents.map (HexName.hash ∘ HexName.of) = c.parents :=
    (List.map_congr_left fun p _ => HexName.hash_of p).trans (List.map_id _)
  show Except.ok ((c.parents.map HexName.of).map HexName.hash) = _
  rw [List.map_map, hid]

/-! ## `git_commit_parents` -/

/-- **Only the header names parents**: whatever the other headers, their continuation lines
and the message hold, `git_commit_parents` returns the names of the `parent` headers in
their order. -/
theorem gitCommitParents_header {D : Type} {git : Git D} {db : D} {sha : String} {out : CmdOutput}
    (t : CommitText) (h : git.catFileCommit db sha = some out) (hcode : out.code = some 0)
    (hstdout : out.stdout = t.bytes) :
    gitCommitParents git db sha = .ok (t.parents.map HexName.hash) := by
  have hsuccess : out.success = true := by
    rw [CmdOutput.success, hcode]
    rfl
  rw [gitCommitParents, h]
  dsimp only
  rw [if_pos hsuccess, hstdout, parentLines_bytes]

namespace Sample

/-- A signature block with a line that looks blank and one that looks like a parent. -/
def gpgsig : Header where
  name := ascii "gpgsig".toList
  value := ascii "-----BEGIN PGP SIGNATURE-----".toList
  more := [[], [13], ascii "parent 00".toList, [255]]
  plain := by decide
  other := by decide
  value_line := by decide
  more_line := by decide

/-- A signed commit, whose message imitates a header. -/
def signedCommit : CommitText where
  tree := .of (zeros 20)
  parents := [.of ((zeros 20).set 0 171 commitHash_pos)]
  headers := [gpgsig]
  message := ascii "parent 0000000000000000000000000000000000000000\n".toList

/-- A repository that prints the signed commit. -/
def signedRepo : Git Unit where
  revParse _ _ := none
  catFileExists _ _ := none
  catFileCommit _ _ := some ⟨some 0, "", signedCommit.bytes, []⟩
  indexPack db _ := (.error "", db)

end Sample

theorem gitCommitParents_header_signed :
    gitCommitParents Sample.signedRepo () "" =
      .ok (Sample.signedCommit.parents.map HexName.hash) :=
  gitCommitParents_header Sample.signedCommit rfl rfl rfl

end FreenetGit
