/-
# `FreenetGit.Url` — the URLs of repositories

A URL is a prefix of the owner's public key, written in base58, and a label that is there
for the reader.  `parse` takes the forms that users write and that git hands to the remote
helper; `url_parse_iff` says exactly which texts it accepts and what it makes of them.
-/
import FreenetGit.Signer
import FreenetGit.Lib.Text

namespace FreenetGit

open Lib

namespace url

/-! ## Parsing and formatting -/

inductive UrlError where
  | invalidPrefixLength (len min max : Nat)
  | invalidPrefixChars
  | empty
deriving DecidableEq

def UrlError.display : UrlError → String
  | .invalidPrefixLength len min max => "prefix length " ++ toString len ++
      " outside valid range [" ++ toString min ++ "..=" ++ toString max ++ "]"
  | .invalidPrefixChars => "prefix contains invalid base58 characters"
  | .empty => "empty URL"

structure ParsedUrl where
  prefixStr : String
  label : Option String
deriving DecidableEq

/-- What follows the scheme, if there is one. -/
def body (url : List Char) : List Char :=
  ((url.dropPrefix? "freenet::".toList).or (url.dropPrefix? "freenet:".toList)).getD url

/-- The prefix and the label; an empty label is none. -/
def splitLabel (body : List Char) : List Char × Option String :=
  match splitOnce '/' body with
  | none => (body, none)
  | some (p, rest) => (p, if rest = [] then none else some (String.ofList rest))

def parse (cr : Crypto) (url : String) : Except UrlError ParsedUrl :=
  let body := body url.toList
  if body = [] then .error .empty
  else
    let (p, label) := splitLabel body
    let prefixStr := String.ofList p
    let len := (utf8 prefixStr).length
    if len < limits.minPrefixLen ∨ len > limits.maxPrefixLen then
      .error (.invalidPrefixLength len limits.minPrefixLen limits.maxPrefixLen)
    else if ¬ cr.bs58Decodes prefixStr then .error .invalidPrefixChars
    else .ok ⟨prefixStr, label⟩

def parsePrefix (cr : Crypto) (url : String) : Except UrlError String :=
  (parse cr url).map (·.prefixStr)

def format (prefixStr : String) : String := "freenet:" ++ prefixStr

def formatWithLabel (prefixStr : String) : Option String → String
  | none => "freenet:" ++ prefixStr
  | some l => "freenet:" ++ prefixStr ++ "/" ++ l

def formatGitUrl (prefixStr : String) : String := "freenet::" ++ prefixStr

def formatGitUrlWithLabel (prefixStr : String) : Option String → String
  | none => "freenet::" ++ prefixStr
  | some l => "freenet::" ++ prefixStr ++ "/" ++ l

/-! ## What is accepted -/

/-- What is checked of a prefix, here and in `validate_state`. -/
structure PrefixShape (cr : Crypto) (prefixStr : String) : Prop where
  minLen : limits.minPrefixLen ≤ (utf8 prefixStr).length
  maxLen : (utf8 prefixStr).length ≤ limits.maxPrefixLen
  decodes : cr.bs58Decodes prefixStr = true

/-- What is relied on of `bs58`: it decodes nothing outside of the alphabet. -/
def OnlyBase58 (cr : Crypto) : Prop :=
  ∀ s, cr.bs58Decodes s = true → ∀ c ∈ s.toList, c ∈ base58Alphabet

/-- The text after the prefix: a slash alone is no label. -/
inductive LabelText : Option String → List Char → Prop
  | nothing : LabelText none []
  | slash : LabelText none ['/']
  | label {l : String} (h : l ≠ "") : LabelText (some l) ('/' :: l.toList)

def schemes : List String := ["", "freenet:", "freenet::"]

/-- A form of the URL of this prefix and label. -/
def UrlText (u : ParsedUrl) (url : List Char) : Prop :=
  ∃ scheme ∈ schemes, ∃ tail, LabelText u.label tail ∧
    url = scheme.toList ++ (u.prefixStr.toList ++ tail)

variable {cr : Crypto} {u : ParsedUrl} {text tail p : List Char}

theorem LabelText.head {label : Option String} (h : LabelText label tail) :
    tail = [] ∨ ∃ rest, tail = '/' :: rest := by
  cases h with
  | nothing => exact .inl rfl
  | slash => exact .inr ⟨_, rfl⟩
  | label _ => exact .inr ⟨_, rfl⟩

/-- No prefix looks like a scheme. -/
theorem not_scheme_prefix (hp : ':' ∉ p) (htail : tail = [] ∨ ∃ rest, tail = '/' :: rest) :
    ¬ "freenet:".toList <+: p ++ tail := by
  intro h
  rcases List.prefix_or_prefix_of_prefix h (List.prefix_append p tail) with hs | ⟨q, hq⟩
  · exact hp (hs.subset (by decide))
  · rw [← hq, List.prefix_append_right_inj] at h
    cases q with
    | nil =>
        rw [List.append_nil] at hq
        exact hp (hq ▸ by decide)
    | cons c q =>
        rcases htail with rfl | ⟨rest, rfl⟩
        · exact List.cons_ne_nil _ _ (List.prefix_nil.mp h)
        · have hc : c = '/' := (List.cons_prefix_cons.mp h).1
          have hmem : '/' ∈ "freenet:".toList := by
            rw [← hq, hc]
            simp
          exact absurd hmem (by decide)

/-- Something has been taken off the text, or nothing. -/
theorem exists_scheme (text : List Char) : ∃ scheme ∈ schemes, text = scheme.toList ++ body text := by
  cases hgit : text.dropPrefix? "freenet::".toList with
  | some rest =>
      refine ⟨"freenet::", by decide, ?_⟩
      rw [body, hgit, Option.some_or, Option.getD_some]
      exact dropPrefix?_eq.mp hgit
  | none =>
      cases hshow : text.dropPrefix? "freenet:".toList with
      | some rest =>
          refine ⟨"freenet:", by decide, ?_⟩
          rw [body, hgit, hshow, Option.none_or, Option.getD_some]
          exact dropPrefix?_eq.mp hshow
      | none =>
          refine ⟨"", by decide, ?_⟩
          rw [body, hgit, hshow]
          rfl

/-- The scheme is taken off, and nothing more. -/
theorem body_append {scheme : String} (hs : scheme ∈ schemes) (hp : ':' ∉ p)
    (htail : tail = [] ∨ ∃ rest, tail = '/' :: rest) :
    body (scheme.toList ++ (p ++ tail)) = p ++ tail := by
  have hplain : ¬ "freenet:".toList <+: p ++ tail := not_scheme_prefix hp htail
  have hlong : "freenet::".toList = "freenet:".toList ++ [':'] := rfl
  have hcolon : ¬ [':'] <+: p ++ tail := by
    intro h
    cases p with
    | nil =>
        rcases htail with rfl | ⟨rest, rfl⟩
        · exact List.cons_ne_nil _ _ (List.prefix_nil.mp h)
        · exact absurd (List.cons_prefix_cons.mp h).1 (by decide)
    | cons c p => exact hp ((List.cons_prefix_cons.mp h).1 ▸ List.mem_cons_self)
  rcases List.mem_cons.mp hs with rfl | hs
  · have hgit : ¬ "freenet::".toList <+: p ++ tail :=
      fun h => hplain ((hlong ▸ List.prefix_append _ _).trans h)
    show body (p ++ tail) = p ++ tail
    rw [body, dropPrefix?_eq_none hgit, dropPrefix?_eq_none hplain]
    rfl
  · rcases List.mem_cons.mp hs with rfl | hs
    · have hgit : ¬ "freenet::".toList <+: "freenet:".toList ++ (p ++ tail) := by
        rw [hlong, List.prefix_append_right_inj]
        exact hcolon
      rw [body, dropPrefix?_eq_none hgit, dropPrefix?_eq.mpr rfl]
      rfl
    · rw [List.mem_singleton.mp hs, body, dropPrefix?_eq.mpr rfl]
      rfl

theorem splitLabel_eq {label : Option String} :
    splitLabel text = (p, label) ↔
      '/' ∉ p ∧ ∃ tail, LabelText label tail ∧ text = p ++ tail := by
  constructor
  · intro h
    unfold splitLabel at h
    split at h
    · next hs =>
        cases h
        exact ⟨splitOnce_eq_none.mp hs, [], .nothing, (List.append_nil _).symm⟩
    · next p' rest hs =>
        obtain ⟨htext, hp⟩ := splitOnce_eq_some.mp hs
        cases h
        refine ⟨hp, '/' :: rest, ?_, htext⟩
        split
        · next hrest => exact hrest ▸ .slash
        · next hrest =>
            have hne : String.ofList rest ≠ "" := by
              intro he
              have he := congrArg String.toList he
              rw [String.toList_ofList] at he
              exact hrest he
            have hl := LabelText.label hne
            rwa [String.toList_ofList] at hl
  · rintro ⟨hp, tail, htail, rfl⟩
    unfold splitLabel
    cases htail with
    | nothing =>
        rw [List.append_nil, splitOnce_eq_none.mpr hp]
    | slash =>
        rw [splitOnce_append hp]
        rfl
    | @label l h =>
        have hne : l.toList ≠ [] := by
          intro he
          exact h (String.toList_inj.mp he)
        rw [splitOnce_append hp]
        show (p, if l.toList = [] then none else some (String.ofList l.toList)) = _
        rw [if_neg hne, String.ofList_toList]

/-- A prefix that decodes has neither a colon nor a slash. -/
theorem OnlyBase58.plain (hbs : OnlyBase58 cr) {s : String} (h : cr.bs58Decodes s = true) :
    ':' ∉ s.toList ∧ '/' ∉ s.toList :=
  ⟨fun hc => absurd (hbs s h _ hc) (by decide), fun hc => absurd (hbs s h _ hc) (by decide)⟩

theorem PrefixShape.ne_nil {s : String} (h : PrefixShape cr s) : s.toList ≠ [] := by
  intro hs
  have hempty : s = "" := String.toList_inj.mp hs
  have hlen := h.minLen
  rw [hempty] at hlen
  exact absurd hlen (by decide)

/-- **Exactly the forms of a URL are accepted**, each with its prefix and its label. -/
theorem url_parse_iff (hbs : OnlyBase58 cr) {url : String} :
    parse cr url = .ok u ↔ PrefixShape cr u.prefixStr ∧ UrlText u url.toList := by
  obtain ⟨prefixStr, label⟩ := u
  constructor
  · intro h
    unfold parse at h
    dsimp only at h
    split at h
    · cases h
    · split at h
      · cases h
      · next hlen =>
          split at h
          · cases h
          · next hdec =>
              cases h
              obtain ⟨-, tail, htail, hbody⟩ := splitLabel_eq.mp (Prod.mk.eta (p := splitLabel _)).symm
              obtain ⟨scheme, hscheme, htext⟩ := exists_scheme url.toList
              obtain ⟨hmin, hmax⟩ := not_or.mp hlen
              refine ⟨⟨Nat.le_of_not_lt hmin, Nat.le_of_not_lt hmax, not_not.mp hdec⟩, scheme,
                hscheme, tail, htail, ?_⟩
              rw [String.toList_ofList, ← hbody]
              exact htext
  · rintro ⟨hshape, scheme, hscheme, tail, htail, htext⟩
    obtain ⟨hcolon, hslash⟩ := hbs.plain hshape.decodes
    have hbody : body url.toList = prefixStr.toList ++ tail := by
      rw [htext]
      exact body_append hscheme hcolon htail.head
    have hlabel : splitLabel (body url.toList) = (prefixStr.toList, label) :=
      splitLabel_eq.mpr ⟨hslash, tail, htail, hbody⟩
    have hne : body url.toList ≠ [] := by
      rw [hbody]
      exact List.append_ne_nil_of_left_ne_nil hshape.ne_nil _
    unfold parse
    dsimp only
    rw [if_neg hne, hlabel]
    dsimp only
    have hlen : ¬ ((utf8 prefixStr).length < limits.minPrefixLen ∨
        (utf8 prefixStr).length > limits.maxPrefixLen) :=
      not_or.mpr ⟨Nat.not_lt_of_le hshape.minLen, Nat.not_lt_of_le hshape.maxLen⟩
    rw [String.ofList_toList, if_neg hlen, if_neg (not_not.mpr hshape.decodes)]

/-- What `create_repo` and `whoami` print parses back, and the label does not matter to the
prefix. -/
theorem parse_formats (hbs : OnlyBase58 cr) {prefixStr : String} (h : PrefixShape cr prefixStr)
    {label : Option String} (hlabel : label ≠ some "") {url : String}
    (hurl : url = formatWithLabel prefixStr label ∨ url = formatGitUrlWithLabel prefixStr label) :
    parse cr url = .ok ⟨prefixStr, label⟩ := by
  refine (url_parse_iff hbs).mpr ⟨h, ?_⟩
  cases label with
  | none =>
      rcases hurl with rfl | rfl
      · exact ⟨"freenet:", by decide, [], .nothing, by simp [formatWithLabel]⟩
      · exact ⟨"freenet::", by decide, [], .nothing, by simp [formatGitUrlWithLabel]⟩
  | some l =>
      have hl : l ≠ "" := fun h => hlabel (congrArg some h)
      rcases hurl with rfl | rfl
      · exact ⟨"freenet:", by decide, _, .label hl, by simp [formatWithLabel]⟩
      · exact ⟨"freenet::", by decide, _, .label hl, by simp [formatGitUrlWithLabel]⟩

/-- The prefix that a repo is created with is that of a URL, and fits its owner. -/
theorem parse_owner (hbs : OnlyBase58 cr) (hstd : StandardBase58 cr) {owner : PublicKey} {n : Nat}
    (hn : limits.minPrefixLen ≤ n) (hn' : n ≤ limits.maxPrefixLen) {label : Option String}
    (hlabel : label ≠ some "") :
    parse cr (formatGitUrlWithLabel (pubkeyPrefix cr owner n) label) =
      .ok ⟨pubkeyPrefix cr owner n, label⟩ ∧ PrefixOk cr ⟨pubkeyPrefix cr owner n⟩ owner := by
  have hok : PrefixOk cr ⟨pubkeyPrefix cr owner n⟩ owner := prefixOk_fromOwner hstd hn hn'
  exact ⟨parse_formats hbs ⟨hok.minLen, hok.maxLen, hok.decodes⟩ hlabel (.inr rfl), hok⟩

end url

/-! ## A URL of a repo -/

theorem Sample.signer_only58 : url.OnlyBase58 Sample.signerCrypto := by
  intro s h c hc
  exact of_decide_eq_true (List.all_eq_true.mp h c hc)

theorem url_parse_iff_short :
    url.parse Sample.signerCrypto "freenet::1111/repo" = .ok ⟨"1111", some "repo"⟩ ↔
      url.PrefixShape Sample.signerCrypto "1111" ∧
        url.UrlText ⟨"1111", some "repo"⟩ "freenet::1111/repo".toList :=
  url.url_parse_iff Sample.signer_only58

end FreenetGit
