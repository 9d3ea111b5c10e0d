/-
# `FreenetGit.TipKeys` — the spellings of a bundle-tip key

`parse_bundle_tip_extension_key` reads each pair of digits with `u8::from_str_radix`,
which takes a `+` in front of a single digit.  Apart from those spellings, a key is the
prefix and 64 hexadecimal digits, and without capitals it is the only one of its bundle
(`bundleTipKeys_exact`).

The source slices the text by bytes; this is the same as reading its characters
(`parseBundleTipExtensionKey_eq_bytes`).
-/
import FreenetGit.Signing

namespace FreenetGit

open Lib

/-! ## The reading, by bytes -/

/-- The number of bytes of a text. -/
def byteLength (cs : List Char) : Nat := (cs.map Char.utf8Size).sum

/-- The next bytes of a text, if they end with a character. -/
def takeBytes : Nat → List Char → Option (List Char × List Char)
  | 0, cs => some ([], cs)
  | _ + 1, [] => none
  | n + 1, c :: cs =>
      if c.utf8Size ≤ n + 1 then
        (takeBytes (n + 1 - c.utf8Size) cs).map fun (s, rest) => (c :: s, rest)
      else none

/-- `u8::from_str_radix(s, 16)` on two bytes of text: two characters or one. -/
def radixSlice : List Char → Option Nat
  | [c, d] => radixPair c d
  | [c] => hexVal c
  | _ => none

/-- The slices `hex[2 * i..2 * i + 2]`, one after another. -/
def bytePairs : Nat → List Char → Option Bytes
  | 0, _ => some []
  | n + 1, cs =>
      (takeBytes 2 cs).bind fun (s, rest) =>
        (radixSlice s).bind fun b => (bytePairs n rest).map (UInt8.ofNat b :: ·)

/-- `parse_bundle_tip_extension_key`, with the text in bytes as in the source. -/
def parseBundleTipExtensionKeyBytes (extKey : String) : Option ObjectBundleId :=
  if bundleTipExtensionPrefix.toList.isPrefixOf extKey.toList then
    let hex := extKey.toList.drop bundleTipExtensionPrefix.toList.length
    if byteLength hex ≠ 64 then none
    else (bytePairs 32 hex).bind (toArray? 32)
  else none

theorem takeBytes_zero (cs : List Char) : takeBytes 0 cs = some ([], cs) := by
  cases cs <;> rfl

theorem hexVal_eq_none {c : Char} (h : c.utf8Size ≠ 1) : hexVal c = none :=
  Option.not_isSome_iff_eq_none.mp (mt utf8Size_of_isHexDigit h)

theorem radixPair_eq_none {c d : Char} (h : c.utf8Size ≠ 1 ∨ d.utf8Size ≠ 1) :
    radixPair c d = none := by
  refine Option.not_isSome_iff_eq_none.mp fun hsome => ?_
  obtain ⟨hc, hd⟩ := radixPair_isSome.mp hsome
  rcases h with h | h
  · rcases hc with rfl | hc
    · exact h rfl
    · exact h (utf8Size_of_isHexDigit hc)
  · exact h (utf8Size_of_isHexDigit hd)

/-- **Two bytes at a time or two characters at a time**: where a character is longer than a
byte, neither reads it. -/
theorem bytePairs_eq : ∀ {n : Nat} {cs : List Char}, byteLength cs = 2 * n →
    bytePairs n cs = hexPairs radixPair cs
  | 0, [], _ => rfl
  | 0, c :: cs, h => by
      have hpos := c.utf8Size_pos
      rw [byteLength, List.map_cons, List.sum_cons] at h
      omega
  | n + 1, [], h => by
      rw [byteLength, List.map_nil, List.sum_nil] at h
      omega
  | n + 1, c :: cs, h => by
      rw [byteLength, List.map_cons, List.sum_cons] at h
      rw [bytePairs, takeBytes]
      by_cases hc : c.utf8Size = 1
      · rw [hc, if_pos (by omega)]
        cases cs with
        | nil =>
            rw [hc, List.map_nil, List.sum_nil] at h
            omega
        | cons d rest =>
            rw [hc, List.map_cons, List.sum_cons] at h
            rw [takeBytes, hexPairs]
            by_cases hd : d.utf8Size = 1
            · have ih := @bytePairs_eq n rest (by rw [byteLength]; omega)
              rw [hd, if_pos (by omega), takeBytes_zero, ← ih]
              rfl
            · have hpos := d.utf8Size_pos
              rw [if_neg (by omega), radixPair_eq_none (.inr hd)]
              rfl
      · have hpos := c.utf8Size_pos
        have hnone : hexPairs radixPair (c :: cs) = none := by
          cases cs with
          | nil => rfl
          | cons d rest => rw [hexPairs, radixPair_eq_none (.inl hc), Option.bind_none]
        rw [hnone]
        by_cases h₂ : c.utf8Size = 2
        · rw [h₂, if_pos (by omega), takeBytes, Option.map_some, Option.bind_some]
          show ((hexVal c).bind fun b => (bytePairs n cs).map (UInt8.ofNat b :: ·)) = none
          rw [hexVal_eq_none hc, Option.bind_none]
        · rw [if_neg (by omega)]
          rfl

/-- What is read has one byte for each character. -/
theorem byteLength_of_hexPairs : ∀ {cs : List Char} {bs : Bytes},
    hexPairs radixPair cs = some bs → byteLength cs = cs.length
  | [], _, _ => rfl
  | [_], _, h => by cases h
  | c :: d :: cs, bs, h => by
      obtain ⟨v, hv, h⟩ := Option.bind_eq_some_iff.mp h
      obtain ⟨rest, hrest, -⟩ := Option.map_eq_some_iff.mp h
      have ih := byteLength_of_hexPairs hrest
      have hone : c.utf8Size = 1 ∧ d.utf8Size = 1 := by
        by_contra hne
        rw [radixPair_eq_none (not_and_or.mp hne)] at hv
        cases hv
      rw [byteLength] at ih
      simp only [byteLength, List.map_cons, List.sum_cons, hone, ih, List.length_cons]
      omega

/-- **Counting characters is counting bytes** for this reader. -/
theorem parseBundleTipExtensionKey_eq_bytes (extKey : String) :
    parseBundleTipExtensionKey extKey = parseBundleTipExtensionKeyBytes extKey := by
  rw [parseBundleTipExtensionKey, parseBundleTipExtensionKeyBytes]
  refine if_congr Iff.rfl ?_ rfl
  generalize extKey.toList.drop bundleTipExtensionPrefix.toList.length = hex
  dsimp only
  have hread : ∀ bs, hexPairs radixPair hex = some bs → byteLength hex = hex.length :=
    fun bs => byteLength_of_hexPairs
  by_cases hbytes : byteLength hex = 64
  · rw [if_neg (not_not_intro hbytes), bytePairs_eq hbytes]
    split
    · next hlen =>
        cases hpairs : hexPairs radixPair hex with
        | none => rfl
        | some bs => exact absurd ((hread bs hpairs).symm.trans hbytes) hlen
    · rfl
  · rw [if_pos hbytes]
    split
    · rfl
    · next hlen =>
        cases hpairs : hexPairs radixPair hex with
        | none => rfl
        | some bs => exact absurd ((hread bs hpairs).trans (not_not.mp hlen)) hbytes

/-! ## Spellings -/

/-- The key is the prefix and 64 digits that denote the id. -/
def Spells (extKey : String) (id : ObjectBundleId) : Prop :=
  ∃ tail, extKey.toList = bundleTipExtensionPrefix.toList ++ tail ∧ tail.length = 64 ∧
    (∀ c ∈ tail, IsHexDigit c) ∧ hexPairs hexPair tail = some id.toList

/-- The key is the prefix and 32 pairs, each of two digits or of a `+` and a digit, and not
all of two digits. -/
def SignedSpelling (extKey : String) : Prop :=
  ∃ tail, extKey.toList = bundleTipExtensionPrefix.toList ++ tail ∧ tail.length = 64 ∧
    (∀ p ∈ pairsOf tail, (p.1 = '+' ∨ IsHexDigit p.1) ∧ IsHexDigit p.2) ∧
    ∃ p ∈ pairsOf tail, p.1 = '+'

/-- The key has no capital letter. -/
def LowerCase (extKey : String) : Prop := ∀ c ∈ extKey.toList, c.isUpper = false

section

variable {extKey : String} {id : ObjectBundleId}

theorem parse_eq_some_iff : parseBundleTipExtensionKey extKey = some id ↔
    ∃ tail, extKey.toList = bundleTipExtensionPrefix.toList ++ tail ∧ tail.length = 64 ∧
      hexPairs radixPair tail = some id.toList := by
  rw [parseBundleTipExtensionKey]
  constructor
  · intro h
    split at h
    · next hprefix =>
        obtain ⟨tail, htail⟩ := List.isPrefixOf_iff_prefix.mp hprefix
        rw [← htail, List.drop_left] at h
        dsimp only at h
        split at h
        · cases h
        · next hlen =>
            obtain ⟨bs, hbs, harray⟩ := Option.bind_eq_some_iff.mp h
            rw [length_of_toArray? harray] at hbs
            exact ⟨tail, htail.symm, not_not.mp hlen, hbs⟩
    · cases h
  · rintro ⟨tail, htail, hlen, hread⟩
    rw [htail, if_pos (List.isPrefixOf_iff_prefix.mpr (List.prefix_append _ _)), List.drop_left]
    dsimp only
    rw [if_neg (not_not_intro hlen), hread, Option.bind_some, toArray?_toList]

/-- The pairs of a tail that is read. -/
theorem pairs_of_hexPairs {tail : List Char} {bs : Bytes}
    (h : hexPairs radixPair tail = some bs) :
    ∀ p ∈ pairsOf tail, (p.1 = '+' ∨ IsHexDigit p.1) ∧ IsHexDigit p.2 :=
  fun p hp => radixPair_isSome.mp (((exists_hexPairs _ _).mp ⟨bs, h⟩).2 p hp)

theorem tail_unique {tail tail' : List Char}
    (h : extKey.toList = bundleTipExtensionPrefix.toList ++ tail)
    (h' : extKey.toList = bundleTipExtensionPrefix.toList ++ tail') : tail' = tail :=
  List.append_cancel_left (h'.symm.trans h)

/-- A key that is read without a sign is spelled out. -/
theorem spells_of_parse (h : parseBundleTipExtensionKey extKey = some id)
    (hsign : ¬ SignedSpelling extKey) : Spells extKey id := by
  obtain ⟨tail, htail, hlen, hread⟩ := parse_eq_some_iff.mp h
  have hpairs := pairs_of_hexPairs hread
  have hplus : ∀ p ∈ pairsOf tail, p.1 ≠ '+' := fun p hp hc =>
    hsign ⟨tail, htail, hlen, hpairs, p, hp, hc⟩
  have hsame : hexPairs radixPair tail = hexPairs hexPair tail :=
    hexPairs_congr fun p hp => if_neg (hplus p hp)
  rw [hsame] at hread
  exact ⟨tail, htail, hlen, isHexDigit_of_hexPairs hread, hread⟩

/-- A signed key is read as well. -/
theorem exists_parse_of_signed (h : SignedSpelling extKey) :
    ∃ id, parseBundleTipExtensionKey extKey = some id := by
  obtain ⟨tail, htail, hlen, hpairs, -⟩ := h
  have hread : ∃ bs, hexPairs radixPair tail = some bs :=
    (exists_hexPairs _ _).mpr ⟨by omega, fun p hp => radixPair_isSome.mpr (hpairs p hp)⟩
  obtain ⟨bs, hbs⟩ := hread
  have hbslen : bs.length = 32 := by
    have := length_of_hexPairs hbs
    omega
  obtain ⟨id, hid⟩ : ∃ id, toArray? 32 bs = some id := ⟨_, dif_pos hbslen⟩
  rw [length_of_toArray? hid] at hbs
  exact ⟨id, parse_eq_some_iff.mpr ⟨tail, htail, hlen, hbs⟩⟩

theorem not_spells_of_signed (h : SignedSpelling extKey) : ¬ Spells extKey id := by
  rintro ⟨tail, htail, -, hdigits, -⟩
  obtain ⟨tail', htail', -, -, p, hp, hplus⟩ := h
  rw [tail_unique htail htail'] at hp
  exact not_isHexDigit_plus (hplus ▸ hdigits p.1 (fst_mem_of_mem_pairsOf hp))

/-- The canonical key is spelled out and has no capitals. -/
theorem spells_bundleTipExtensionKey (id : ObjectBundleId) :
    Spells (bundleTipExtensionKey id) id := by
  have htoList : (bundleTipExtensionKey id).toList =
      bundleTipExtensionPrefix.toList ++ id.toList.flatMap hexByte := by
    rw [bundleTipExtensionKey, String.toList_append, hexEncode, String.toList_ofList]
  have hread := hexPairs_flatMap hexPair_digits id.toList
  have hlen := length_of_hexPairs hread
  rw [Vector.length_toList] at hlen
  exact ⟨_, htoList, hlen, isHexDigit_of_hexPairs hread, hread⟩

theorem lowerCase_bundleTipExtensionKey (id : ObjectBundleId) :
    LowerCase (bundleTipExtensionKey id) := by
  intro c hc
  rw [bundleTipExtensionKey, String.toList_append] at hc
  rcases List.mem_append.mp hc with hc | hc
  · have hprefix : bundleTipExtensionPrefix.toList.all (!·.isUpper) = true := rfl
    exact Bool.not_eq_true' c.isUpper ▸ List.all_eq_true.mp hprefix c hc
  · obtain ⟨n, hn, rfl⟩ := mem_hexEncode hc
    have hdigit : ∀ n < 16, (hexDigit n).isUpper = false := by decide
    exact hdigit n hn

theorem not_signed_bundleTipExtensionKey (id : ObjectBundleId) :
    ¬ SignedSpelling (bundleTipExtensionKey id) :=
  fun hsign => not_spells_of_signed hsign (spells_bundleTipExtensionKey id)

/-- Without capitals, the canonical key is the only one that is spelled out. -/
theorem eq_bundleTipExtensionKey (h : Spells extKey id) (hlower : LowerCase extKey) :
    extKey = bundleTipExtensionKey id := by
  obtain ⟨tail, htail, -, -, hread⟩ := h
  have htailLower : ∀ c ∈ tail, c.isUpper = false := fun c hc =>
    hlower c (htail ▸ List.mem_append_right _ hc)
  apply String.toList_inj.mp
  rw [htail, eq_flatMap_of_hexPairs hread htailLower, bundleTipExtensionKey,
    String.toList_append, hexEncode, String.toList_ofList]

end

/-- **Bundle-tip keys have one spelling, but for signed ones.**  Canonical keys are read
back.  A key that is read is spelled out exactly if it has no sign.  Without capitals, a key
is the only unsigned one of its bundle exactly if it has no sign itself. -/
theorem bundleTipKeys_exact (s : String) :
    (∀ id, parseBundleTipExtensionKey (bundleTipExtensionKey id) = some id) ∧
    ((∀ id, parseBundleTipExtensionKey s = some id → Spells s id) ↔ ¬ SignedSpelling s) ∧
    (LowerCase s →
      ((∀ t id, LowerCase t → ¬ SignedSpelling t → parseBundleTipExtensionKey s = some id →
        parseBundleTipExtensionKey t = some id → s = t) ↔ ¬ SignedSpelling s)) := by
  refine ⟨parseBundleTipExtensionKey_key, ⟨fun h hsign => ?_, fun hsign id h => ?_⟩,
    fun hlower => ⟨fun h hsign => ?_, fun hsign t id ht htsign hs htread => ?_⟩⟩
  · obtain ⟨id, hid⟩ := exists_parse_of_signed hsign
    exact not_spells_of_signed hsign (h id hid)
  · exact spells_of_parse h hsign
  · obtain ⟨id, hid⟩ := exists_parse_of_signed hsign
    have heq := h (bundleTipExtensionKey id) id (lowerCase_bundleTipExtensionKey id)
      (not_signed_bundleTipExtensionKey id) hid (parseBundleTipExtensionKey_key id)
    exact not_signed_bundleTipExtensionKey id (heq ▸ hsign)
  · rw [eq_bundleTipExtensionKey (spells_of_parse hs hsign) hlower,
      eq_bundleTipExtensionKey (spells_of_parse htread htsign) ht]

/-! The bundle 0a 00 .. 00, whose canonical key starts with `bundle-tip:0a`. -/

namespace Sample

def tenId : ObjectBundleId := (zeros 32).set 0 10 hash_pos

def signedTail : List Char := '+' :: 'a' :: List.replicate 62 '0'

def signedKey : String := bundleTipExtensionPrefix ++ String.ofList signedTail

theorem signedKey_toList : signedKey.toList = bundleTipExtensionPrefix.toList ++ signedTail := by
  rw [signedKey, String.toList_append, String.toList_ofList]

theorem signedKey_signed : SignedSpelling signedKey := by
  have hread : hexPairs radixPair signedTail = some tenId.toList := rfl
  exact ⟨signedTail, signedKey_toList, rfl, pairs_of_hexPairs hread, ('+', 'a'),
    List.mem_cons_self, rfl⟩

theorem parse_signedKey : parseBundleTipExtensionKey signedKey = some tenId :=
  parse_eq_some_iff.mpr ⟨signedTail, signedKey_toList, rfl, rfl⟩

theorem signedKey_lowerCase : LowerCase signedKey := by
  have hall : (bundleTipExtensionPrefix.toList ++ signedTail).all (!·.isUpper) = true := rfl
  intro c hc
  rw [signedKey_toList] at hc
  exact Bool.not_eq_true' c.isUpper ▸ List.all_eq_true.mp hall c hc

end Sample

theorem bundleTipKeys_signed :
    parseBundleTipExtensionKey Sample.signedKey = some Sample.tenId ∧
    ¬ Spells Sample.signedKey Sample.tenId ∧
    LowerCase Sample.signedKey ∧ LowerCase (bundleTipExtensionKey Sample.tenId) ∧
    Sample.signedKey ≠ bundleTipExtensionKey Sample.tenId ∧
    ¬ ((∀ s id, parseBundleTipExtensionKey s = some id → Spells s id) ∧
      ∀ s t id, LowerCase s → LowerCase t → parseBundleTipExtensionKey s = some id →
        parseBundleTipExtensionKey t = some id → s = t) := by
  have hspells : ¬ Spells Sample.signedKey Sample.tenId :=
    not_spells_of_signed Sample.signedKey_signed
  refine ⟨Sample.parse_signedKey, hspells, Sample.signedKey_lowerCase,
    lowerCase_bundleTipExtensionKey _, fun heq => ?_,
    fun h => hspells (h.1 _ _ Sample.parse_signedKey)⟩
  exact not_signed_bundleTipExtensionKey Sample.tenId (heq ▸ Sample.signedKey_signed)

end FreenetGit
