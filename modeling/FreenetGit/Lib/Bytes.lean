/-
# `Lib.Bytes` — byte strings, fixed-width integers, UTF-8

A byte string is a `List UInt8`, a fixed-size array `[u8; n]` is a
`Vector UInt8 n`, and an integer is written as a fixed number of bytes in
little-endian order (`leBytes`) or big-endian order (its reverse).  The facts
the encoders need are that each of these maps into byte strings without loss
at a known width.
-/
import Mathlib

namespace Lib

/-- A byte string (`Vec<u8>`, `&[u8]`). -/
abbrev Bytes := List UInt8

/-- Byte strings are compared from the left. -/
theorem compare_bytes_lt : ∀ {x y : Bytes}, compare x y = .lt ↔ x < y
  | [], [] => by simp [compare, List.compareLex]
  | [], _ :: _ => by simp [compare, List.compareLex]
  | _ :: _, [] => by simp [compare, List.compareLex]
  | a :: x, b :: y => by
      have ih := @compare_bytes_lt x y
      rw [List.cons_lt_cons_iff, ← ih]
      rw [List.compare_cons_cons, Ordering.then_eq_lt, Std.compare_eq_lt, Std.compare_eq_iff_eq]

/-! ## Fixed-width integers -/

/-- The low `k` bytes of `n`, least significant first. -/
def leBytes : Nat → Nat → Bytes
  | 0, _ => []
  | k + 1, n => UInt8.ofNat n :: leBytes k (n / 256)

/-- The number a little-endian byte string denotes. -/
def ofLeBytes : Bytes → Nat
  | [] => 0
  | b :: bs => b.toNat + 256 * ofLeBytes bs

@[simp] theorem length_leBytes : ∀ (k n : Nat), (leBytes k n).length = k
  | 0, _ => rfl
  | k + 1, n => by simp [leBytes, length_leBytes k]

theorem ofLeBytes_leBytes : ∀ (k n : Nat), n < 256 ^ k → ofLeBytes (leBytes k n) = n
  | 0, n, h => by
      have : n = 0 := by simpa using h
      simp [leBytes, ofLeBytes, this]
  | k + 1, n, h => by
      have hk : n / 256 < 256 ^ k := by
        rw [Nat.div_lt_iff_lt_mul (by decide)]
        rwa [pow_succ] at h
      have hb : (UInt8.ofNat n).toNat = n % 256 := by simp
      simp only [leBytes, ofLeBytes, ofLeBytes_leBytes k _ hk, hb]
      omega

theorem ofLeBytes_lt : ∀ bs : Bytes, ofLeBytes bs < 256 ^ bs.length
  | [] => Nat.one_pos
  | b :: bs => by
      have ih := ofLeBytes_lt bs
      have hb := b.toNat_lt
      rw [ofLeBytes, List.length_cons, pow_succ]
      omega

theorem leBytes_inj {k m n : Nat} (hm : m < 256 ^ k) (hn : n < 256 ^ k)
    (h : leBytes k m = leBytes k n) : m = n := by
  rw [← ofLeBytes_leBytes k m hm, h, ofLeBytes_leBytes k n hn]

/-- `u32::to_le_bytes`. -/
def u32le (x : UInt32) : Bytes := leBytes 4 x.toNat

/-- `u64::to_le_bytes`. -/
def u64le (x : UInt64) : Bytes := leBytes 8 x.toNat

@[simp] theorem length_u32le (x : UInt32) : (u32le x).length = 4 := length_leBytes 4 _

@[simp] theorem length_u64le (x : UInt64) : (u64le x).length = 8 := length_leBytes 8 _

theorem ofLeBytes_u32le (x : UInt32) : ofLeBytes (u32le x) = x.toNat :=
  ofLeBytes_leBytes 4 _ x.toNat_lt

theorem ofLeBytes_u64le (x : UInt64) : ofLeBytes (u64le x) = x.toNat :=
  ofLeBytes_leBytes 8 _ x.toNat_lt

theorem u32le_inj {x y : UInt32} (h : u32le x = u32le y) : x = y :=
  UInt32.toNat_inj.mp (by rw [← ofLeBytes_u32le, h, ofLeBytes_u32le])

theorem u64le_inj {x y : UInt64} (h : u64le x = u64le y) : x = y :=
  UInt64.toNat_inj.mp (by rw [← ofLeBytes_u64le, h, ofLeBytes_u64le])

/-! ## Strings -/

/-- The UTF-8 bytes of a string (`str::as_bytes`). -/
def utf8 (s : String) : Bytes := s.toByteArray.data.toList

theorem utf8_inj {s t : String} (h : utf8 s = utf8 t) : s = t :=
  String.toByteArray_inj.mp (ByteArray.ext (Array.toList_inj.mp h))

theorem length_utf8 (s : String) : (utf8 s).length = s.utf8ByteSize := rfl

theorem length_utf8_append (s t : String) :
    (utf8 (s ++ t)).length = (utf8 s).length + (utf8 t).length := by
  rw [length_utf8, length_utf8, length_utf8, String.utf8ByteSize_append]

/-- ASCII text has as many bytes as characters. -/
theorem length_utf8_ofList_of_ascii : ∀ {l : List Char}, (∀ c ∈ l, c.utf8Size = 1) →
    (utf8 (String.ofList l)).length = l.length
  | [], _ => rfl
  | c :: l, h => by
      have hc : (String.utf8EncodeChar c).length = 1 := by
        rw [String.length_utf8EncodeChar, h c List.mem_cons_self]
      have hl := length_utf8_ofList_of_ascii fun d hd => h d (List.mem_cons_of_mem _ hd)
      simp only [utf8, String.toByteArray_ofList, List.utf8Encode] at hl ⊢
      simp_all
      omega

/-- `String::from_utf8`: the string a byte string is the UTF-8 encoding of. -/
def ofUtf8 (bs : Bytes) : Option String := String.fromUTF8? ⟨bs.toArray⟩

theorem ofUtf8_utf8 (s : String) : ofUtf8 (utf8 s) = some s := by
  have h : (⟨(utf8 s).toArray⟩ : ByteArray) = s.toByteArray := by
    simp [utf8]
  simp only [ofUtf8, h, String.fromUTF8?]
  rw [dif_pos s.isValidUTF8]
  rfl

/-- What was read as text is written back as it was. -/
theorem utf8_of_ofUtf8 {bs : Bytes} {s : String} (h : ofUtf8 bs = some s) : utf8 s = bs := by
  unfold ofUtf8 String.fromUTF8? at h
  split at h
  · cases h
    simp [utf8, String.fromUTF8]
  · cases h

/-! ## Arrays -/

/-- `<[u8; n]>::try_from`: the array a byte string of the right length is. -/
def toArray? (n : Nat) (bs : Bytes) : Option (Vector UInt8 n) :=
  if h : bs.length = n then some ⟨bs.toArray, by simp [h]⟩ else none

theorem toArray?_toList {n : Nat} (v : Vector UInt8 n) : toArray? n v.toList = some v := by
  simp [toArray?, Vector.toList]

theorem length_of_toArray? {n : Nat} {bs : Bytes} {v : Vector UInt8 n}
    (h : toArray? n bs = some v) : bs = v.toList := by
  unfold toArray? at h
  split at h
  · cases h; simp [Vector.toList]
  · cases h

end Lib
