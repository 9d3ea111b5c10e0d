/-
# `Lib.Hex` — hexadecimal text

Bytes are written as two lower-case digits each (`hexEncode`); the reader takes
digits of either case and fails on anything else (`hexDecode`).  Two readers of a
pair of digits differ in whether they take a leading `+`.
-/
import FreenetGit.Lib.Bytes

namespace Lib

/-- The lower-case digit of a number below 16. -/
def hexDigit (n : Nat) : Char := if n < 10 then Char.ofNat (48 + n) else Char.ofNat (87 + n)

/-- The value of a digit of either case. -/
def hexVal (c : Char) : Option Nat :=
  if '0' ≤ c ∧ c ≤ '9' then some (c.toNat - 48)
  else if 'a' ≤ c ∧ c ≤ 'f' then some (c.toNat - 87)
  else if 'A' ≤ c ∧ c ≤ 'F' then some (c.toNat - 55)
  else none

theorem hexVal_hexDigit : ∀ n < 16, hexVal (hexDigit n) = some n := by decide

/-- The two digits of a byte. -/
def hexByte (b : UInt8) : List Char := [hexDigit (b.toNat / 16), hexDigit (b.toNat % 16)]

/-- `hex::encode`. -/
def hexEncode (bs : Bytes) : String := String.ofList (bs.flatMap hexByte)

/-- Read the characters two by two. -/
def hexPairs (read : Char → Char → Option Nat) : List Char → Option Bytes
  | [] => some []
  | [_] => none
  | c :: d :: cs => (read c d).bind fun n => (hexPairs read cs).map (UInt8.ofNat n :: ·)

/-- Two digits, high one first. -/
def hexPair (c d : Char) : Option Nat :=
  (hexVal c).bind fun m => (hexVal d).map fun n => 16 * m + n

/-- `u8::from_str_radix(s, 16)` on two characters: a leading `+` is allowed. -/
def radixPair (c d : Char) : Option Nat := if c = '+' then hexVal d else hexPair c d

/-- `hex::decode`. -/
def hexDecode (s : String) : Option Bytes := hexPairs hexPair s.toList

/-- A reader that reads the two digits of every byte reads every text. -/
theorem hexPairs_flatMap {read : Char → Char → Option Nat}
    (h : ∀ b : UInt8, read (hexDigit (b.toNat / 16)) (hexDigit (b.toNat % 16)) = some b.toNat) :
    ∀ bs : Bytes, hexPairs read (bs.flatMap hexByte) = some bs
  | [] => rfl
  | b :: bs => by
      simp [List.flatMap_cons, hexByte, hexPairs, h, hexPairs_flatMap h bs]

theorem hexPair_digits (b : UInt8) :
    hexPair (hexDigit (b.toNat / 16)) (hexDigit (b.toNat % 16)) = some b.toNat := by
  have hb := b.toNat_lt
  rw [hexPair, hexVal_hexDigit _ (by omega), hexVal_hexDigit _ (Nat.mod_lt _ (by decide))]
  simp only [Option.bind_some, Option.map_some, Option.some.injEq]
  omega

theorem hexDigit_ne_plus : ∀ n < 16, hexDigit n ≠ '+' := by decide

theorem radixPair_digits (b : UInt8) :
    radixPair (hexDigit (b.toNat / 16)) (hexDigit (b.toNat % 16)) = some b.toNat := by
  have hb := b.toNat_lt
  rw [radixPair, if_neg (hexDigit_ne_plus _ (by omega)), hexPair_digits]

@[simp] theorem hexDecode_hexEncode (bs : Bytes) : hexDecode (hexEncode bs) = some bs := by
  rw [hexDecode, hexEncode, String.toList_ofList, hexPairs_flatMap hexPair_digits]

theorem hexEncode_inj {x y : Bytes} (h : hexEncode x = hexEncode y) : x = y :=
  Option.some.inj (by rw [← hexDecode_hexEncode, h, hexDecode_hexEncode])

theorem length_toList_hexEncode : ∀ bs : Bytes, (hexEncode bs).toList.length = 2 * bs.length
  | [] => rfl
  | b :: bs => by
      have ih := length_toList_hexEncode bs
      rw [hexEncode, String.toList_ofList] at ih ⊢
      simp only [List.flatMap_cons, List.length_append, ih, List.length_cons, hexByte,
        List.length_nil]
      omega

theorem hexDigit_utf8Size : ∀ n < 16, (hexDigit n).utf8Size = 1 := by decide

/-- The digits of a text in hexadecimal are ASCII and no white space. -/
theorem mem_hexEncode {bs : Bytes} {c : Char} (h : c ∈ (hexEncode bs).toList) :
    ∃ n < 16, c = hexDigit n := by
  rw [hexEncode, String.toList_ofList] at h
  rcases List.mem_flatMap.mp h with ⟨b, -, h⟩
  have hb := b.toNat_lt
  rcases List.mem_cons.mp h with rfl | h
  · exact ⟨b.toNat / 16, by omega, rfl⟩
  · exact ⟨b.toNat % 16, by omega, List.mem_singleton.mp h⟩

theorem length_utf8_hexEncode (bs : Bytes) : (utf8 (hexEncode bs)).length = 2 * bs.length := by
  have hascii : ∀ c ∈ bs.flatMap hexByte, c.utf8Size = 1 := fun c hc => by
    obtain ⟨n, hn, rfl⟩ := mem_hexEncode (h := by rwa [hexEncode, String.toList_ofList])
    exact hexDigit_utf8Size n hn
  rw [← length_toList_hexEncode, hexEncode, length_utf8_ofList_of_ascii hascii, String.toList_ofList]

/-! ## Which texts are read -/

def IsHexDigit (c : Char) : Prop := (hexVal c).isSome = true

/-- The characters two by two. -/
def pairsOf : List Char → List (Char × Char)
  | c :: d :: cs => (c, d) :: pairsOf cs
  | _ => []

theorem hexPair_isSome {c d : Char} :
    (hexPair c d).isSome = true ↔ IsHexDigit c ∧ IsHexDigit d := by
  rw [hexPair, IsHexDigit, IsHexDigit]
  cases hexVal c <;> cases hexVal d <;> simp

theorem not_isHexDigit_plus : ¬ IsHexDigit '+' := nofun

theorem radixPair_isSome {c d : Char} :
    (radixPair c d).isSome = true ↔ (c = '+' ∨ IsHexDigit c) ∧ IsHexDigit d := by
  rw [radixPair]
  split
  · next h => exact ⟨fun hd => ⟨.inl h, hd⟩, fun hd => hd.2⟩
  · next h => rw [hexPair_isSome, or_iff_right h]

theorem exists_hexPairs (read : Char → Char → Option Nat) : ∀ cs : List Char,
    (∃ bs, hexPairs read cs = some bs) ↔
      cs.length % 2 = 0 ∧ ∀ p ∈ pairsOf cs, (read p.1 p.2).isSome = true
  | [] => by simp [hexPairs, pairsOf]
  | [_] => by simp [hexPairs]
  | c :: d :: cs => by
      have ih := exists_hexPairs read cs
      have hlen : (c :: d :: cs).length % 2 = cs.length % 2 := Nat.add_mod_right _ 2
      rw [hlen, pairsOf, List.forall_mem_cons, and_left_comm, ← ih, hexPairs]
      cases read c d <;> cases hexPairs read cs <;> simp

theorem hexPairs_congr {read read' : Char → Char → Option Nat} : ∀ {cs : List Char},
    (∀ p ∈ pairsOf cs, read p.1 p.2 = read' p.1 p.2) → hexPairs read cs = hexPairs read' cs
  | [], _ => rfl
  | [_], _ => rfl
  | c :: d :: cs, h => by
      obtain ⟨hcd, hcs⟩ := List.forall_mem_cons.mp h
      rw [hexPairs, hexPairs, hexPairs_congr hcs, hcd]

theorem fst_mem_of_mem_pairsOf {p : Char × Char} : ∀ {cs : List Char}, p ∈ pairsOf cs → p.1 ∈ cs
  | [], h => by cases h
  | [_], h => by cases h
  | c :: d :: cs, h => by
      rcases List.mem_cons.mp h with rfl | h
      · exact List.mem_cons_self
      · exact List.mem_cons_of_mem _ (List.mem_cons_of_mem _ (fst_mem_of_mem_pairsOf h))

theorem snd_mem_of_mem_pairsOf {p : Char × Char} : ∀ {cs : List Char}, p ∈ pairsOf cs → p.2 ∈ cs
  | [], h => by cases h
  | [_], h => by cases h
  | c :: d :: cs, h => by
      rcases List.mem_cons.mp h with rfl | h
      · exact List.mem_cons_of_mem _ List.mem_cons_self
      · exact List.mem_cons_of_mem _ (List.mem_cons_of_mem _ (snd_mem_of_mem_pairsOf h))

theorem length_of_hexPairs {read : Char → Char → Option Nat} : ∀ {cs : List Char} {bs : Bytes},
    hexPairs read cs = some bs → cs.length = 2 * bs.length
  | [], _, h => by
      cases h
      rfl
  | [_], _, h => by cases h
  | c :: d :: cs, _, h => by
      obtain ⟨n, -, h⟩ := Option.bind_eq_some_iff.mp h
      obtain ⟨bs, hbs, rfl⟩ := Option.map_eq_some_iff.mp h
      rw [List.length_cons, List.length_cons, length_of_hexPairs hbs, List.length_cons]
      omega

/-- Digits read by pairs are digits. -/
theorem isHexDigit_of_hexPairs : ∀ {cs : List Char} {bs : Bytes},
    hexPairs hexPair cs = some bs → ∀ c ∈ cs, IsHexDigit c
  | [], _, _ => by simp
  | [_], _, h => by cases h
  | c :: d :: cs, _, h => by
      obtain ⟨n, hn, h⟩ := Option.bind_eq_some_iff.mp h
      obtain ⟨bs, hbs, -⟩ := Option.map_eq_some_iff.mp h
      obtain ⟨hc, hd⟩ := hexPair_isSome.mp (Option.isSome_iff_exists.mpr ⟨n, hn⟩)
      exact List.forall_mem_cons.mpr ⟨hc, List.forall_mem_cons.mpr ⟨hd, isHexDigit_of_hexPairs hbs⟩⟩

/-! ## The order of the texts of a byte string -/

theorem hexVal_spec : ∀ n < 128, ∀ v, hexVal (Char.ofNat n) = some v →
    v < 16 ∧ Char.ofNat n ≤ hexDigit v := by decide

theorem hexVal_le {c : Char} {v : Nat} (h : hexVal c = some v) : v < 16 ∧ c ≤ hexDigit v := by
  have hc : c.toNat < 128 := by
    by_contra hge
    have hlt : ∀ d : Char, d.toNat < 128 → ¬ c ≤ d := fun d hd hle =>
      hge (lt_of_le_of_lt (Char.le_def.mp hle) hd)
    rw [hexVal, if_neg fun h => hlt '9' (by decide) h.2, if_neg fun h => hlt 'f' (by decide) h.2,
      if_neg fun h => hlt 'F' (by decide) h.2] at h
    cases h
  have hspec := hexVal_spec c.toNat hc v
  rw [Char.ofNat_toNat] at hspec
  exact hspec h

theorem hexVal_lower : ∀ n < 128, ∀ v, hexVal (Char.ofNat n) = some v →
    (Char.ofNat n).isUpper = false → Char.ofNat n = hexDigit v := by decide

theorem lt_of_isHexDigit {c : Char} (h : IsHexDigit c) : c.toNat < 128 := by
  obtain ⟨v, hv⟩ := Option.isSome_iff_exists.mp h
  obtain ⟨hlt, hle⟩ := hexVal_le hv
  have hdigit : ∀ n < 16, (hexDigit n).toNat < 128 := by decide
  exact lt_of_le_of_lt (Char.le_def.mp hle) (hdigit v hlt)

/-- Without capitals, a digit is the one its value is written with. -/
theorem utf8Size_of_isHexDigit {c : Char} (h : IsHexDigit c) : c.utf8Size = 1 := by
  have hlt := lt_of_isHexDigit h
  rw [Char.utf8Size_eq_one_iff, UInt32.le_iff_toNat_le]
  exact Nat.le_of_lt_succ hlt

theorem eq_hexDigit {c : Char} {v : Nat} (h : hexVal c = some v) (hlower : c.isUpper = false) :
    c = hexDigit v := by
  have hc := lt_of_isHexDigit (Option.isSome_iff_exists.mpr ⟨v, h⟩)
  have hspec := hexVal_lower c.toNat hc v
  rw [Char.ofNat_toNat] at hspec
  exact hspec h hlower

/-- **Without capitals, a byte string has one text.** -/
theorem eq_flatMap_of_hexPairs : ∀ {cs : List Char} {bs : Bytes},
    hexPairs hexPair cs = some bs → (∀ c ∈ cs, c.isUpper = false) → cs = bs.flatMap hexByte
  | [], _, h, _ => by
      cases h
      rfl
  | [_], _, h, _ => by cases h
  | c :: d :: cs, _, h, hlower => by
      obtain ⟨n, hn, h⟩ := Option.bind_eq_some_iff.mp h
      obtain ⟨bs, hbs, rfl⟩ := Option.map_eq_some_iff.mp h
      obtain ⟨m, hm, hn⟩ := Option.bind_eq_some_iff.mp hn
      obtain ⟨k, hk, rfl⟩ := Option.map_eq_some_iff.mp hn
      obtain ⟨hc, hlower⟩ := List.forall_mem_cons.mp hlower
      obtain ⟨hd, hlower⟩ := List.forall_mem_cons.mp hlower
      have hm16 := (hexVal_le hm).1
      have hk16 := (hexVal_le hk).1
      have hbyte : (UInt8.ofNat (16 * m + k)).toNat = 16 * m + k :=
        UInt8.toNat_ofNat_of_lt' (show 16 * m + k < 256 by omega)
      rw [List.flatMap_cons, ← eq_flatMap_of_hexPairs hbs hlower, hexByte, hbyte,
        show (16 * m + k) / 16 = m by omega, show (16 * m + k) % 16 = k by omega,
        ← eq_hexDigit hm hc, ← eq_hexDigit hk hd]
      rfl

/-- Of the two-character texts of a byte, the canonical one is the last. -/
theorem not_lt_of_radixPair {c d : Char} {n : Nat} {xs ys : List Char}
    (h : radixPair c d = some n) (hrest : ¬ xs < ys) :
    ¬ hexByte (UInt8.ofNat n) ++ xs < c :: d :: ys := by
  have hcons : ∀ {a b : Char} {l l' : List Char}, b ≤ a → ¬ l < l' → ¬ a :: l < b :: l' := by
    intro a b l l' hle hl hlt
    rcases List.cons_lt_cons_iff.mp hlt with h | ⟨-, h⟩
    · exact Char.not_lt.mpr hle h
    · exact hl h
  have hpair : ∀ {m k : Nat}, m < 16 → k < 16 → c ≤ hexDigit m → d ≤ hexDigit k →
      n = 16 * m + k → ¬ hexByte (UInt8.ofNat n) ++ xs < c :: d :: ys := by
    rintro m k hm hk hc hd rfl
    have hbyte : (UInt8.ofNat (16 * m + k)).toNat = 16 * m + k :=
      UInt8.toNat_ofNat_of_lt' (show 16 * m + k < 256 by omega)
    rw [hexByte, hbyte, show (16 * m + k) / 16 = m by omega, show (16 * m + k) % 16 = k by omega]
    exact hcons hc (hcons hd hrest)
  rw [radixPair] at h
  split at h
  · next hplus =>
      obtain ⟨hn, hd⟩ := hexVal_le h
      exact hpair (m := 0) (by decide) hn (by rw [hplus]; decide) hd (by omega)
  · rw [hexPair, Option.bind_eq_some_iff] at h
    obtain ⟨m, hm, h⟩ := h
    obtain ⟨k, hk, rfl⟩ := Option.map_eq_some_iff.mp h
    exact hpair (hexVal_le hm).1 (hexVal_le hk).1 (hexVal_le hm).2 (hexVal_le hk).2 rfl

/-- **Of the texts of a byte string, the canonical one is the last.** -/
theorem not_lt_of_hexPairs : ∀ {cs : List Char} {bs : Bytes}, hexPairs radixPair cs = some bs →
    ¬ bs.flatMap hexByte < cs
  | [], bs, h => by
      cases h
      exact List.not_lt_nil _
  | [_], _, h => by cases h
  | c :: d :: cs, bs, h => by
      obtain ⟨n, hn, h⟩ := Option.bind_eq_some_iff.mp h
      obtain ⟨bs, hbs, rfl⟩ := Option.map_eq_some_iff.mp h
      exact not_lt_of_radixPair hn (not_lt_of_hexPairs hbs)

end Lib
