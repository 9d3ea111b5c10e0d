/-
# `FreenetGit.Listing` — the names of refs, and the list that git reads

A ref name is to have at most 256 bytes, no control characters and no bidirectional
override marks (`RefNameOk`).  `validate_state` checks the length of the refs and of
the default branch, and nothing else about names.  `handle_list` writes the names into
lines for git, which reads them as the remote-helper protocol says (`ReadsList`).
`listing_faithful_iff` says for which accepted states the names are as they should be
and git reads what the state says.
-/
import FreenetGit.Convergence
import FreenetGit.Git
import FreenetGit.Push

namespace FreenetGit

open Lib

/-! ## Ref names -/

/-- U+0000–U+001F and U+007F. -/
def isControl (c : Char) : Bool := decide (c.toNat ≤ 0x1F) || c.toNat == 0x7F

/-- U+202A–U+202E and U+2066–U+2069. -/
def isBidiOverride (c : Char) : Bool :=
  decide (0x202A ≤ c.toNat ∧ c.toNat ≤ 0x202E) || decide (0x2066 ≤ c.toNat ∧ c.toNat ≤ 0x2069)

/-- Neither control characters nor override marks. -/
def CleanName (n : RefName) : Prop := ∀ c ∈ n.toList, isControl c = false ∧ isBidiOverride c = false

/-- What is asked of a ref name. -/
structure RefNameOk (n : RefName) : Prop where
  short : (utf8 n).length ≤ limits.maxRefNameBytes
  clean : CleanName n

/-- The names that `handle_list` writes. -/
inductive ListedName (state : RepoState) : RefName → Prop
  | ref {n : RefName} {e : RefEntry} (h : state.refs[n]? = some e) : ListedName state n
  | defaultBranch {f : SignedField RefName} (h : state.defaultBranch = some f) :
      ListedName state f.value

/-- All names in a state. -/
inductive NameIn (state : RepoState) : RefName → Prop
  | listed {n : RefName} (h : ListedName state n) : NameIn state n
  | forcePushAllowed {f : SignedField (List RefName)} {n : RefName}
      (h : state.forcePushAllowed = some f) (hn : n ∈ f.value) : NameIn state n

/-- Listed names are checked for their length. -/
theorem Accepted.listed_short {cr : Crypto} {params : RepoParams} {state : RepoState}
    (h : Accepted cr params state) {n : RefName} (hn : ListedName state n) :
    (utf8 n).length ≤ limits.maxRefNameBytes := by
  cases hn with
  | ref he => exact (h.refOk _ _ he).1
  | defaultBranch hf => exact h.defaultBranchLen _ hf

/-! ## What is written -/

/-- `{hex} {name}`. -/
def refLine (e : RefName × RefEntry) : String := hexEncodeCommit e.2.target ++ " " ++ e.1

/-- `@{} HEAD`. -/
def headLine (default : SignedField RefName) : String := "@" ++ default.value ++ " HEAD"

/-- The lines before the blank one. -/
def listLines (state : RepoState) : List String :=
  state.refs.toList.map refLine ++ (state.defaultBranch.map headLine).toList

def writeln (line : List Char) : List Char := line ++ ['\n']

/-- The output of `handle_list`, as characters. -/
def handleList (state : RepoState) : List Char :=
  ((listLines state).map String.toList ++ [[]]).flatMap writeln

/-! ## What is read -/

/-- A line of the list, by the remote-helper protocol. -/
inductive ListLine where
  /-- `<hex> <name>`. -/
  | ref (target : CommitHash) (name : String)
  /-- `@<dest> <name>`. -/
  | symref (dest name : String)
  /-- `? <name>` and `:<keyword> <value>`. -/
  | other (line : List Char)
deriving DecidableEq

/-- What is relied on of git: it reads lines up to the blank one, each on its own; a line is a
value, a space and a name, up to the space before attributes. -/
structure ReadsList (readLine : List Char → Option ListLine)
    (readList : List Char → Option (List ListLine)) : Prop where
  lines : ∀ ls : List (List Char), (∀ l ∈ ls, ('\n' ∉ l ∧ '\r' ∉ l) ∧ l ≠ []) →
    readList ((ls ++ [[]]).flatMap writeln) = ls.mapM readLine
  ref : ∀ (target : CommitHash) (rest : List Char),
    readLine ((hexEncodeCommit target).toList ++ ' ' :: rest) =
      some (.ref target (String.ofList (word rest)))
  symref : ∀ dest rest : List Char, ' ' ∉ dest →
    readLine ('@' :: dest ++ ' ' :: rest) =
      some (.symref (String.ofList dest) (String.ofList (word rest)))

/-- What git is to read: the targets of the refs, and `HEAD`. -/
def listing (state : RepoState) : List ListLine :=
  state.refs.toList.map (fun e => .ref e.2.target e.1) ++
    (state.defaultBranch.map fun f => .symref f.value "HEAD").toList

/-! ## One line -/

/-- The name up to the first space. -/
def firstWord (n : String) : String := String.ofList (word n.toList)

theorem firstWord_eq_self {n : String} : firstWord n = n ↔ ' ' ∉ n.toList := by
  rw [firstWord, ← word_eq_self]
  constructor
  · intro h
    have h := congrArg String.toList h
    rwa [String.toList_ofList] at h
  · intro h
    rw [h, String.ofList_toList]

/-- A digit is none of the characters that mean something in a list. -/
theorem hexDigit_plain : ∀ n < 16, hexDigit n ≠ ' ' ∧ hexDigit n ≠ '@' ∧ hexDigit n ≠ '?' ∧
    hexDigit n ≠ ':' ∧ hexDigit n ≠ '\n' ∧ hexDigit n ≠ '\r' := by decide

theorem hex_plain {t : CommitHash} {c : Char} (h : c ∈ (hexEncodeCommit t).toList) :
    c ≠ ' ' ∧ c ≠ '@' ∧ c ≠ '?' ∧ c ≠ ':' ∧ c ≠ '\n' ∧ c ≠ '\r' := by
  obtain ⟨n, hn, rfl⟩ := mem_hexEncode h
  exact hexDigit_plain n hn

theorem toList_refLine (e : RefName × RefEntry) :
    (refLine e).toList = (hexEncodeCommit e.2.target).toList ++ ' ' :: e.1.toList := by
  simp [refLine]

theorem toList_headLine (f : SignedField RefName) :
    (headLine f).toList = '@' :: f.value.toList ++ ' ' :: "HEAD".toList := by
  simp [headLine]

section

variable {readLine : List Char → Option ListLine} {readList : List Char → Option (List ListLine)}

/-- **A line for a ref** is read as its target and its name up to the first space. -/
theorem ReadsList.readLine_refLine (hread : ReadsList readLine readList) (e : RefName × RefEntry) :
    readLine (refLine e).toList = some (.ref e.2.target (firstWord e.1)) := by
  rw [toList_refLine]
  exact hread.ref e.2.target e.1.toList

/-- The line for `HEAD` points to the default branch up to the first space. -/
theorem ReadsList.readLine_headLine (hread : ReadsList readLine readList)
    (f : SignedField RefName) :
    ∃ name, readLine (headLine f).toList = some (.symref (firstWord f.value) name) ∧
      (' ' ∉ f.value.toList → name = "HEAD") := by
  rw [toList_headLine]
  by_cases h : ' ' ∈ f.value.toList
  · have hcut : '@' :: f.value.toList ++ ' ' :: "HEAD".toList = '@' :: word f.value.toList ++
        ' ' :: (afterWord f.value.toList ++ ' ' :: "HEAD".toList) := by
      conv_lhs => rw [word_afterWord h]
      simp
    have hsymref := hread.symref _ (afterWord f.value.toList ++ ' ' :: "HEAD".toList)
      (space_not_mem_word f.value.toList)
    exact ⟨_, (congrArg readLine hcut).trans hsymref, fun hn => absurd h hn⟩
  · refine ⟨"HEAD", ?_, fun _ => rfl⟩
    rw [hread.symref _ _ h, firstWord, word_eq_self.mpr h]
    rfl

end

/-! ## The list -/

theorem mem_refLine {c : Char} {e : RefName × RefEntry} (h : c ∈ (refLine e).toList) :
    c ∈ (hexEncodeCommit e.2.target).toList ∨ c = ' ' ∨ c ∈ e.1.toList := by
  rw [toList_refLine] at h
  simpa using h

theorem mem_headLine {c : Char} {f : SignedField RefName} (h : c ∈ (headLine f).toList) :
    c ∈ f.value.toList ∨ c ∈ "@ HEAD".toList := by
  rw [toList_headLine] at h
  rcases List.mem_append.mp h with h | h
  · rcases List.mem_cons.mp h with rfl | h
    · exact .inr List.mem_cons_self
    · exact .inl h
  · exact .inr (List.mem_cons_of_mem _ h)

/-- The lines are not blank, and they are as whole as the names in them. -/
theorem listLines_whole {state : RepoState}
    (h : ∀ n, ListedName state n → '\n' ∉ n.toList ∧ '\r' ∉ n.toList) {l : String}
    (hl : l ∈ listLines state) : ('\n' ∉ l.toList ∧ '\r' ∉ l.toList) ∧ l.toList ≠ [] := by
  rcases List.mem_append.mp hl with hl | hl
  · obtain ⟨e, he, rfl⟩ := List.mem_map.mp hl
    obtain ⟨hlf, hcr⟩ := h e.1 (.ref (Std.ExtTreeMap.mem_toList_iff_getElem?_eq_some.mp he))
    refine ⟨⟨fun hc => ?_, fun hc => ?_⟩, by simp [refLine]⟩
    · rcases mem_refLine hc with hc | hc | hc
      · exact (hex_plain hc).2.2.2.2.1 rfl
      · cases hc
      · exact hlf hc
    · rcases mem_refLine hc with hc | hc | hc
      · exact (hex_plain hc).2.2.2.2.2 rfl
      · cases hc
      · exact hcr hc
  · obtain ⟨f, hf, rfl⟩ := Option.map_eq_some_iff.mp (Option.mem_toList.mp hl)
    obtain ⟨hlf, hcr⟩ := h f.value (.defaultBranch hf)
    refine ⟨⟨fun hc => ?_, fun hc => ?_⟩, by simp [headLine]⟩
    · exact (mem_headLine hc).elim hlf (by simp)
    · exact (mem_headLine hc).elim hcr (by simp)

section

variable {readLine : List Char → Option ListLine} {readList : List Char → Option (List ListLine)}
  (hread : ReadsList readLine readList)

include hread

/-- **What is read of the list** are its lines, where the names have no line breaks. -/
theorem ReadsList.readList_handleList {state : RepoState}
    (h : ∀ n, ListedName state n → '\n' ∉ n.toList ∧ '\r' ∉ n.toList) :
    readList (handleList state) =
      (listLines state).mapM fun l => readLine l.toList := by
  rw [handleList, hread.lines, List.mapM_map]
  · rfl
  · intro l hl
    obtain ⟨s, hs, rfl⟩ := List.mem_map.mp hl
    exact listLines_whole h hs

/-- The refs that are read have their names up to the first space. -/
theorem ReadsList.mapM_refLines (l : List (RefName × RefEntry)) :
    ((l.map refLine).mapM fun s => readLine s.toList) =
      some (l.map fun e => .ref e.2.target (firstWord e.1)) := by
  have hline : (fun s => readLine (String.toList s)) ∘ refLine =
      fun e => some (.ref e.2.target (firstWord e.1)) := by
    funext e
    exact hread.readLine_refLine e
  rw [List.mapM_map, hline]
  exact List.mapM_pure

end

theorem map_firstWord_iff (l : List (RefName × RefEntry)) :
    (l.map fun e => ListLine.ref e.2.target (firstWord e.1)) =
        l.map (fun e => .ref e.2.target e.1) ↔ ∀ e ∈ l, ' ' ∉ e.1.toList := by
  rw [List.map_inj_left]
  simp only [ListLine.ref.injEq, true_and, firstWord_eq_self]

theorem forall_listedName {state : RepoState} {P : RefName → Prop} :
    (∀ n, ListedName state n → P n) ↔
      (∀ e ∈ state.refs.toList, P e.1) ∧ ∀ f, state.defaultBranch = some f → P f.value := by
  constructor
  · intro h
    exact ⟨fun e he => h _ (.ref (Std.ExtTreeMap.mem_toList_iff_getElem?_eq_some.mp he)),
      fun f hf => h _ (.defaultBranch hf)⟩
  · rintro ⟨hrefs, hdefault⟩ n hn
    cases hn with
    | ref he => exact hrefs (n, _) (Std.ExtTreeMap.mem_toList_iff_getElem?_eq_some.mpr he)
    | defaultBranch hf => exact hdefault _ hf

/-- **The list says what the state says** exactly if no name in it has a space. -/
theorem ReadsList.eq_listing_iff {readLine : List Char → Option ListLine}
    {readList : List Char → Option (List ListLine)} (hread : ReadsList readLine readList)
    {state : RepoState} (h : ∀ n, ListedName state n → '\n' ∉ n.toList ∧ '\r' ∉ n.toList) :
    readList (handleList state) = some (listing state) ↔
      ∀ n, ListedName state n → ' ' ∉ n.toList := by
  rw [hread.readList_handleList h, listLines, List.mapM_append, hread.mapM_refLines, listing,
    forall_listedName, ← map_firstWord_iff]
  cases hd : state.defaultBranch with
  | none =>
      change some (_ ++ []) = some (_ ++ []) ↔ _
      rw [Option.some.injEq, List.append_nil, List.append_nil]
      exact ⟨fun h => ⟨h, nofun⟩, fun h => h.1⟩
  | some f =>
      obtain ⟨name, hhead, hname⟩ := hread.readLine_headLine f
      have hmap : ((some f).map headLine).toList.mapM (fun s => readLine s.toList) =
          some [.symref (firstWord f.value) name] := by
        change [headLine f].mapM _ = _
        rw [List.mapM_cons, hhead]
        rfl
      rw [hmap]
      change some (_ ++ [_]) = some (_ ++ [_]) ↔ _
      rw [Option.some.injEq]
      constructor
      · intro heq
        obtain ⟨hrefs, hlast⟩ := List.append_inj' heq rfl
        refine ⟨hrefs, fun f' hf' => ?_⟩
        cases hf'
        exact firstWord_eq_self.mp (ListLine.symref.inj (List.cons.inj hlast).1).1
      · rintro ⟨hrefs, hdefault⟩
        have hspace := hdefault f rfl
        rw [hrefs, hname hspace, firstWord_eq_self.mpr hspace]

/-! ## Accepted states -/

theorem CleanName.whole {n : RefName} (h : CleanName n) : '\n' ∉ n.toList ∧ '\r' ∉ n.toList :=
  ⟨fun hc => absurd (h _ hc).1 (by decide), fun hc => absurd (h _ hc).1 (by decide)⟩

/-- **When the names are as they should be**, and git reads what an accepted state says: exactly
if no name has a control character or an override mark, no branch in `force_push_allowed` is
too long, and no name in the list has a space. -/
theorem listing_faithful_iff {cr : Crypto} {params : RepoParams} {state : RepoState}
    {readLine : List Char → Option ListLine} {readList : List Char → Option (List ListLine)}
    (hread : ReadsList readLine readList) (h : validateState cr params state = .ok ()) :
    ((∀ n, NameIn state n → RefNameOk n) ∧ readList (handleList state) = some (listing state)) ↔
      (∀ n, NameIn state n → CleanName n) ∧
      (∀ f, state.forcePushAllowed = some f →
        ∀ n ∈ f.value, (utf8 n).length ≤ limits.maxRefNameBytes) ∧
      ∀ n, ListedName state n → ' ' ∉ n.toList := by
  have haccepted := validateState_eq_ok.mp h
  constructor
  · rintro ⟨hok, hlist⟩
    have hclean : ∀ n, NameIn state n → CleanName n := fun n hn => (hok n hn).clean
    refine ⟨hclean, fun f hf n hn => (hok n (.forcePushAllowed hf hn)).short, ?_⟩
    exact (hread.eq_listing_iff fun n hn => (hclean n (.listed hn)).whole).mp hlist
  · rintro ⟨hclean, hshort, hspace⟩
    refine ⟨fun n hn => ⟨?_, hclean n hn⟩, ?_⟩
    · cases hn with
      | listed hn => exact haccepted.listed_short hn
      | forcePushAllowed hf hn => exact hshort _ hf n hn
    · exact (hread.eq_listing_iff fun n hn => (hclean n (.listed hn)).whole).mpr hspace

/-! ## A reader -/

/-- A line without a space is malformed. -/
def parseListLine (line : List Char) : Option ListLine :=
  if ' ' ∉ line then none
  else
    match word line with
    | '@' :: dest => some (.symref (String.ofList dest) (String.ofList (word (afterWord line))))
    | '?' :: _ | ':' :: _ => some (.other line)
    | value => (parseSha1 (String.ofList value)).toOption.map
        (.ref · (String.ofList (word (afterWord line))))

/-- The lines up to the blank one, which has to come. -/
def parseList (text : List Char) : Option (List ListLine) :=
  if [] ∈ lines text then ((lines text).takeWhile (· ≠ [])).mapM parseListLine else none

theorem parseList_unlines {ls : List (List Char)}
    (h : ∀ l ∈ ls, ('\n' ∉ l ∧ '\r' ∉ l) ∧ l ≠ []) :
    parseList ((ls ++ [[]]).flatMap writeln) = ls.mapM parseListLine := by
  have hlines : lines ((ls ++ [[]]).flatMap writeln) = ls ++ [[]] := by
    have hall : ∀ l ∈ ls ++ [[]], '\n' ∉ l ∧ '\r' ∉ l := by
      intro l hl
      rcases List.mem_append.mp hl with hl | hl
      · exact (h l hl).1
      · rw [List.mem_singleton.mp hl]
        exact ⟨List.not_mem_nil, List.not_mem_nil⟩
    have hread := lines_flatMap hall []
    rw [List.append_nil] at hread
    exact hread.trans (List.append_nil _)
  have hpos : ∀ l ∈ ls, decide (l ≠ []) = true := fun l hl => decide_eq_true (h l hl).2
  rw [parseList, hlines, if_pos (List.mem_append_right _ List.mem_cons_self),
    List.takeWhile_append_of_pos hpos, List.takeWhile_cons_of_neg (by simp), List.append_nil]

theorem parseListLine_ref (t : CommitHash) (rest : List Char) :
    parseListLine ((hexEncodeCommit t).toList ++ ' ' :: rest) =
      some (.ref t (String.ofList (word rest))) := by
  have hspace : ' ' ∉ (hexEncodeCommit t).toList := fun h => (hex_plain h).1 rfl
  rw [parseListLine, if_neg (by simp), word_append hspace, afterWord_append hspace]
  split
  · next heq => exact absurd rfl (hex_plain (heq ▸ List.mem_cons_self)).2.1
  · next heq => exact absurd rfl (hex_plain (heq ▸ List.mem_cons_self)).2.2.1
  · next heq => exact absurd rfl (hex_plain (heq ▸ List.mem_cons_self)).2.2.2.1
  · rw [String.ofList_toList, hexEncodeCommit, parseSha1_hexEncode]
    rfl

theorem parseListLine_symref {dest : List Char} (h : ' ' ∉ dest) (rest : List Char) :
    parseListLine ('@' :: dest ++ ' ' :: rest) =
      some (.symref (String.ofList dest) (String.ofList (word rest))) := by
  have hspace : ' ' ∉ '@' :: dest := by simpa using h
  rw [parseListLine, if_neg (by simp), word_append hspace, afterWord_append hspace]
  rfl

/-- It does what is relied on. -/
theorem parseList_reads : ReadsList parseListLine parseList where
  lines _ h := parseList_unlines h
  ref t rest := parseListLine_ref t rest
  symref _ rest h := parseListLine_symref h rest

/-! A ref whose name ends with a line feed. -/

namespace Sample

def brokenName : RefName := "refs/heads/main\n"

def brokenEntry : RefEntry := ⟨sha 1, 1, owner, 0, sig 1⟩

def brokenCrypto : Crypto := crypto [(.ref brokenName (sha 1) 1 0, sig 1)]

theorem brokenName_eq : brokenName = main ++ "\n" := rfl

theorem broken_ref : (withRef brokenName brokenEntry).refs[brokenName]? = some brokenEntry :=
  Std.ExtTreeMap.getElem?_insert_self

theorem broken_accepted :
    validateState brokenCrypto Sample.params (withRef brokenName brokenEntry) = .ok () :=
  validateState_eq_ok.mpr (withRef_accepted (nodup_sigs (l := [1]) (List.nodup_singleton _))
    (by decide) List.mem_cons_self rfl)

theorem main_plain {c : Char} (h : c ∈ main.toList) : c ≠ ' ' ∧ c ≠ '\n' ∧ c ≠ '\r' := by
  have hall : (main.toList.all fun c => c ≠ ' ' ∧ c ≠ '\n' ∧ c ≠ '\r') = true := rfl
  exact of_decide_eq_true (List.all_eq_true.mp hall c h)

/-- The list ends at the line feed of the name. -/
theorem parseList_broken :
    parseList (handleList (withRef brokenName brokenEntry)) = some [.ref (sha 1) main] := by
  have hplain : ∀ c ∈ (refLine (main, brokenEntry)).toList, c ≠ '\n' ∧ c ≠ '\r' := by
    intro c hc
    rcases mem_refLine hc with hc | rfl | hc
    · exact (hex_plain hc).2.2.2.2
    · exact ⟨by decide, by decide⟩
    · exact (main_plain hc).2
  have htext : handleList (withRef brokenName brokenEntry) =
      (refLine (main, brokenEntry)).toList ++ '\n' :: ['\n', '\n'] := by
    have hrefs : (withRef brokenName brokenEntry).refs.toList = [(brokenName, brokenEntry)] := rfl
    have hnone : (withRef brokenName brokenEntry).defaultBranch = none := rfl
    rw [handleList, listLines, hrefs, hnone, brokenName_eq]
    simp [refLine, writeln]
  have hlines : lines (handleList (withRef brokenName brokenEntry)) =
      [(refLine (main, brokenEntry)).toList, [], []] := by
    rw [htext, lines_append fun h => (hplain _ h).1 rfl, stripCr_eq_self fun h => (hplain _ h).2 rfl]
    rfl
  have hname : firstWord main = main := firstWord_eq_self.mpr fun h => (main_plain h).1 rfl
  rw [parseList, hlines, if_pos (List.mem_cons_of_mem _ List.mem_cons_self),
    List.takeWhile_cons_of_pos (by simp [refLine]), List.takeWhile_cons_of_neg (by simp),
    List.mapM_cons, parseList_reads.readLine_refLine, hname]
  rfl

end Sample

theorem listing_faithful_iff_main :
    ((∀ n, NameIn Sample.raceA n → RefNameOk n) ∧
      parseList (handleList Sample.raceA) = some (listing Sample.raceA)) ↔
      (∀ n, NameIn Sample.raceA n → CleanName n) ∧
      (∀ f, Sample.raceA.forcePushAllowed = some f →
        ∀ n ∈ f.value, (utf8 n).length ≤ limits.maxRefNameBytes) ∧
      ∀ n, ListedName Sample.raceA n → ' ' ∉ n.toList :=
  listing_faithful_iff parseList_reads (Sample.race_accepted _ (.inl rfl)).1

/-- The state is accepted, its name has a line feed, and git reads another name. -/
theorem listing_broken :
    validateState Sample.brokenCrypto Sample.params
      (Sample.withRef Sample.brokenName Sample.brokenEntry) = .ok () ∧
    ¬ (∀ n, NameIn (Sample.withRef Sample.brokenName Sample.brokenEntry) n → RefNameOk n) ∧
    parseList (handleList (Sample.withRef Sample.brokenName Sample.brokenEntry)) ≠
      some (listing (Sample.withRef Sample.brokenName Sample.brokenEntry)) := by
  refine ⟨Sample.broken_accepted, fun h => ?_, fun h => ?_⟩
  · have hlisted : ListedName (Sample.withRef Sample.brokenName Sample.brokenEntry)
        Sample.brokenName := .ref Sample.broken_ref
    refine (h _ (.listed hlisted)).clean.whole.1 ?_
    rw [Sample.brokenName_eq]
    simp
  · have hlisting : listing (Sample.withRef Sample.brokenName Sample.brokenEntry) =
        [.ref (Sample.sha 1) Sample.brokenName] := rfl
    rw [Sample.parseList_broken, hlisting] at h
    have hname := (ListLine.ref.inj (List.cons.inj (Option.some.inj h)).1).2
    exact absurd hname (by decide)

end FreenetGit
