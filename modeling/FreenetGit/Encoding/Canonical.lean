/-
# `FreenetGit.Encoding.Canonical` — canonical CBOR for content hashes

The subset of CBOR that names bundles: unsigned integers in the shortest form,
byte and text strings, arrays, and maps whose keys stand in the byte order of
their encodings.  The main result is that an encoding can be read off the front
of any byte string (`Built.encode_append_inj`): values with equal
encodings are equal, and no encoding is a proper prefix of another.
-/
import FreenetGit.Types

namespace FreenetGit

open Lib

namespace canonical

/-! ## Heads -/

/-- The head of an item: the major type and the shortest form of a number. -/
def writeUint (major : UInt8) (value : UInt64) : Bytes :=
  let pre := major <<< 5
  if value < 24 then [pre ||| value.toUInt8]
  else if value < 0x100 then [pre ||| 24, value.toUInt8]
  else if value < 0x10000 then (pre ||| 25) :: (leBytes 2 value.toNat).reverse
  else if value < 0x100000000 then (pre ||| 26) :: (leBytes 4 value.toNat).reverse
  else (pre ||| 27) :: (leBytes 8 value.toNat).reverse

/-- The five low bits of a head. -/
def headInfo (n : Nat) : Nat :=
  if n < 24 then n else if n < 0x100 then 24 else if n < 0x10000 then 25
  else if n < 0x100000000 then 26 else 27

/-- How many bytes of the number follow a head. -/
def headWidth (n : Nat) : Nat :=
  if n < 24 then 0 else if n < 0x100 then 1 else if n < 0x10000 then 2
  else if n < 0x100000000 then 4 else 8

theorem headInfo_lt (n : Nat) : headInfo n < 32 := by
  unfold headInfo
  split_ifs <;> omega

theorem headWidth_eq_of_headInfo_eq {m n : Nat} (h : headInfo m = headInfo n) :
    headWidth m = headWidth n := by
  unfold headInfo at h
  unfold headWidth
  split_ifs at h ⊢ <;> first | rfl | omega

/-- The low bits and the bytes that follow determine the number. -/
theorem eq_of_headInfo_eq {m n : Nat} (hm : m < 2 ^ 64) (hn : n < 2 ^ 64)
    (h : headInfo m = headInfo n)
    (ht : leBytes (headWidth m) m = leBytes (headWidth n) n) : m = n := by
  rw [← headWidth_eq_of_headInfo_eq h] at ht
  by_cases hs : m < 24
  · unfold headInfo at h
    split_ifs at h <;> omega
  · refine leBytes_inj ?_ ?_ ht
    · unfold headWidth
      split_ifs <;> omega
    · rw [headWidth_eq_of_headInfo_eq h]
      unfold headInfo at h
      unfold headWidth
      split_ifs at h ⊢ <;> omega

theorem writeUint_eq (major : UInt8) (value : UInt64) :
    writeUint major value = (major <<< 5 ||| UInt8.ofNat (headInfo value.toNat)) ::
      (leBytes (headWidth value.toNat) value.toNat).reverse := by
  simp only [writeUint, headInfo, headWidth, UInt64.lt_iff_toNat_lt, UInt64.reduceToNat]
  split_ifs <;> rfl

theorem toNat_head {major : UInt8} (hm : major < 8) {i : Nat} (hi : i < 32) :
    (major <<< 5 ||| UInt8.ofNat i).toNat = major.toNat * 32 + i := by
  have h8 : major.toNat < 8 := UInt8.lt_iff_toNat_lt.mp hm
  have hs : (major <<< 5).toNat = major.toNat <<< 5 := by
    rw [UInt8.toNat_shiftLeft]
    refine Nat.mod_eq_of_lt ?_
    rw [Nat.shiftLeft_eq]
    simp
    omega
  have hi' : (UInt8.ofNat i).toNat = i := by
    rw [UInt8.toNat_ofNat']
    omega
  rw [UInt8.toNat_or, hs, hi', ← Nat.shiftLeft_add_eq_or_of_lt (by simpa using hi),
    Nat.shiftLeft_eq]

/-- A head can be read off, with what follows it. -/
theorem writeUint_append_inj {m n : UInt8} (hm : m < 8) (hn : n < 8) {v w : UInt64} {a b : Bytes}
    (h : writeUint m v ++ a = writeUint n w ++ b) : m = n ∧ v = w ∧ a = b := by
  rw [writeUint_eq, writeUint_eq, List.cons_append, List.cons_append, List.cons.injEq] at h
  obtain ⟨hh, ht⟩ := h
  have hh := congrArg UInt8.toNat hh
  rw [toNat_head hm (headInfo_lt _), toNat_head hn (headInfo_lt _)] at hh
  have hiv := headInfo_lt v.toNat
  have hiw := headInfo_lt w.toNat
  have hinfo : headInfo v.toNat = headInfo w.toNat := by omega
  have hmn : m.toNat = n.toNat := by omega
  have hw := headWidth_eq_of_headInfo_eq hinfo
  obtain ⟨hb, hab⟩ := List.append_inj ht (by simp [hw])
  have hvw := eq_of_headInfo_eq v.toNat_lt w.toNat_lt hinfo (List.reverse_inj.mp hb)
  exact ⟨UInt8.toNat_inj.mp hmn, UInt64.toNat_inj.mp hvw, hab⟩

/-! ## Values -/

/-- A canonical CBOR value.  A map is the list of its entries, the keys already
encoded and in ascending order. -/
inductive Value where
  | uint (v : UInt64)
  | bytes (b : Bytes)
  | text (s : String)
  | array (items : List Value)
  | map (m : List (Bytes × Value))

/-- `len as u64`. -/
def len64 (n : Nat) : UInt64 := UInt64.ofNat n

theorem len64_inj {m n : Nat} (hm : m < 2 ^ 64) (hn : n < 2 ^ 64) (h : len64 m = len64 n) :
    m = n := by
  have := congrArg UInt64.toNat h
  rwa [len64, len64, UInt64.toNat_ofNat', UInt64.toNat_ofNat', Nat.mod_eq_of_lt hm,
    Nat.mod_eq_of_lt hn] at this

mutual

def Value.encode : Value → Bytes
  | .uint v => writeUint 0 v
  | .bytes b => writeUint 2 (len64 b.length) ++ b
  | .text s => writeUint 3 (len64 (utf8 s).length) ++ utf8 s
  | .array items => writeUint 4 (len64 items.length) ++ encodeItems items
  | .map m => writeUint 5 (len64 m.length) ++ encodeEntries m

def encodeItems : List Value → Bytes
  | [] => []
  | v :: vs => v.encode ++ encodeItems vs

def encodeEntries : List (Bytes × Value) → Bytes
  | [] => []
  | (k, v) :: es => k ++ v.encode ++ encodeEntries es

end

/-! ## Unambiguous values

A value built by the constructors has lengths that fit their heads and map keys
that are encodings. -/

mutual

inductive Built : Value → Prop
  | uint (v : UInt64) : Built (.uint v)
  | bytes {b : Bytes} (h : b.length < 2 ^ 64) : Built (.bytes b)
  | text {s : String} (h : (utf8 s).length < 2 ^ 64) : Built (.text s)
  | array {items : List Value} (h : items.length < 2 ^ 64) (hi : BuiltItems items) :
      Built (.array items)
  | map {m : List (Bytes × Value)} (h : m.length < 2 ^ 64) (he : BuiltEntries m) :
      Built (.map m)

inductive BuiltItems : List Value → Prop
  | nil : BuiltItems []
  | cons {v : Value} {vs : List Value} (hv : Built v) (hvs : BuiltItems vs) : BuiltItems (v :: vs)

inductive BuiltEntries : List (Bytes × Value) → Prop
  | nil : BuiltEntries []
  | cons {k v : Value} {es : List (Bytes × Value)} (hk : Built k) (hv : Built v)
      (hes : BuiltEntries es) : BuiltEntries ((k.encode, v) :: es)

end

/-- The major type of a value. -/
def Value.major : Value → UInt8
  | .uint _ => 0
  | .bytes _ => 2
  | .text _ => 3
  | .array _ => 4
  | .map _ => 5

/-- The number in the head of a value. -/
def Value.headValue : Value → UInt64
  | .uint v => v
  | .bytes b => len64 b.length
  | .text s => len64 (utf8 s).length
  | .array items => len64 items.length
  | .map m => len64 m.length

/-- What follows the head of a value. -/
def Value.body : Value → Bytes
  | .uint _ => []
  | .bytes b => b
  | .text s => utf8 s
  | .array items => encodeItems items
  | .map m => encodeEntries m

theorem Value.major_lt (v : Value) : v.major < 8 := by cases v <;> simp only [major] <;> decide

theorem Value.encode_eq (v : Value) : v.encode = writeUint v.major v.headValue ++ v.body := by
  cases v <;> simp [Value.encode, major, headValue, body]

/-- The first head of two encodings can be compared. -/
theorem Value.encode_append_head {v w : Value} {a b : Bytes}
    (h : v.encode ++ a = w.encode ++ b) :
    v.major = w.major ∧ v.headValue = w.headValue ∧ v.body ++ a = w.body ++ b := by
  rw [encode_eq, encode_eq, List.append_assoc, List.append_assoc] at h
  exact writeUint_append_inj v.major_lt w.major_lt h

mutual

/-- **An encoding can be read off** the front of a byte string. -/
theorem Built.encode_append_inj : ∀ {v w : Value} {a b : Bytes}, Built v → Built w →
    v.encode ++ a = w.encode ++ b → v = w ∧ a = b
  | _, w, _, _, .uint v, hw, h => by
      obtain ⟨hm, hn, hb⟩ := Value.encode_append_head h
      cases hw <;> first | exact absurd hm (by simp only [Value.major]; decide) | skip
      exact ⟨congrArg Value.uint hn, hb⟩
  | _, w, _, _, .bytes hl, hw, h => by
      obtain ⟨hm, hn, hb⟩ := Value.encode_append_head h
      cases hw <;> first | exact absurd hm (by simp only [Value.major]; decide) | skip
      next hl' =>
        obtain ⟨rfl, hab⟩ := List.append_inj hb (len64_inj hl hl' hn)
        exact ⟨rfl, hab⟩
  | _, w, _, _, .text hl, hw, h => by
      obtain ⟨hm, hn, hb⟩ := Value.encode_append_head h
      cases hw <;> first | exact absurd hm (by simp only [Value.major]; decide) | skip
      next hl' =>
        obtain ⟨hs, hab⟩ := List.append_inj hb (len64_inj hl hl' hn)
        exact ⟨by rw [utf8_inj hs], hab⟩
  | _, w, _, _, .array hl hi, hw, h => by
      obtain ⟨hm, hn, hb⟩ := Value.encode_append_head h
      cases hw <;> first | exact absurd hm (by simp only [Value.major]; decide) | skip
      next hl' hi' =>
        obtain ⟨rfl, hab⟩ := BuiltItems.encode_append_inj hi hi' (len64_inj hl hl' hn) hb
        exact ⟨rfl, hab⟩
  | _, w, _, _, .map hl he, hw, h => by
      obtain ⟨hm, hn, hb⟩ := Value.encode_append_head h
      cases hw <;> first | exact absurd hm (by simp only [Value.major]; decide) | skip
      next hl' he' =>
        obtain ⟨rfl, hab⟩ := BuiltEntries.encode_append_inj he he' (len64_inj hl hl' hn) hb
        exact ⟨rfl, hab⟩

theorem BuiltItems.encode_append_inj : ∀ {vs ws : List Value} {a b : Bytes}, BuiltItems vs →
    BuiltItems ws → vs.length = ws.length → encodeItems vs ++ a = encodeItems ws ++ b →
    vs = ws ∧ a = b
  | _, _, _, _, .nil, .nil, _, h => ⟨rfl, h⟩
  | _, _, _, _, .cons hv hvs, .cons hw hws, hl, h => by
      simp only [encodeItems, List.append_assoc] at h
      obtain ⟨rfl, h₁⟩ := Built.encode_append_inj hv hw h
      obtain ⟨rfl, h₂⟩ := BuiltItems.encode_append_inj hvs hws (Nat.succ.inj hl) h₁
      exact ⟨rfl, h₂⟩

theorem BuiltEntries.encode_append_inj : ∀ {es fs : List (Bytes × Value)} {a b : Bytes},
    BuiltEntries es → BuiltEntries fs → es.length = fs.length →
    encodeEntries es ++ a = encodeEntries fs ++ b → es = fs ∧ a = b
  | _, _, _, _, .nil, .nil, _, h => ⟨rfl, h⟩
  | _, _, _, _, .cons hk hv hes, .cons hk' hv' hfs, hl, h => by
      simp only [encodeEntries, List.append_assoc] at h
      obtain ⟨hk, h₁⟩ := Built.encode_append_inj hk hk' h
      obtain ⟨rfl, h₂⟩ := Built.encode_append_inj hv hv' h₁
      obtain ⟨rfl, h₃⟩ := BuiltEntries.encode_append_inj hes hfs (Nat.succ.inj hl) h₂
      exact ⟨by rw [hk], h₃⟩

end

/-- Equal encodings come from equal values. -/
theorem Built.encode_inj {v w : Value} (hv : Built v) (hw : Built w)
    (h : v.encode = w.encode) : v = w :=
  (hv.encode_append_inj (a := []) (b := []) hw (by rw [h])).1

/-! ## The map builder -/

/-- The entries so far, in key order. -/
structure MapBuilder where
  entries : List (Bytes × Value)

/-- `MapBuilder::default()`. -/
def MapBuilder.default : MapBuilder := ⟨[]⟩

/-- `BTreeMap::insert` on the entries. -/
def insertEntry (k : Bytes) (v : Value) : List (Bytes × Value) → List (Bytes × Value)
  | [] => [(k, v)]
  | (k', v') :: es =>
      match compare k k' with
      | .lt => (k, v) :: (k', v') :: es
      | .eq => (k, v) :: es
      | .gt => (k', v') :: insertEntry k v es

def MapBuilder.entry (b : MapBuilder) (key value : Value) : MapBuilder :=
  ⟨insertEntry key.encode value b.entries⟩

def MapBuilder.textEntry (b : MapBuilder) (key : String) (value : Value) : MapBuilder :=
  b.entry (.text key) value

def MapBuilder.build (b : MapBuilder) : Value := .map b.entries

end canonical

end FreenetGit
