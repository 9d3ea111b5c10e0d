/-
# `Lib.Codec` — binary codecs that invert themselves

A codec writes a value as bytes and reads it back from the front of a byte
string.  The law is part of the structure, so every codec that can be built
inverts itself.  The combinators are those of a fixed-width little-endian
format: words, blobs and sequences behind a 64-bit length, options behind a
tag byte, variants behind a 32-bit tag, ordered maps as sequences of entries.

A value that does not fit (a length of 2⁶⁴ or more) has no encoding.
-/
import FreenetGit.Lib.Bytes
import FreenetGit.Lib.TreeMap

namespace Lib

/-- A writer and a reader, where the reader undoes the writer and leaves what follows. -/
structure Codec (α : Type) where
  enc : α → Option Bytes
  dec : Bytes → Option (α × Bytes)
  dec_enc : ∀ {a : α} {bs : Bytes} (rest : Bytes), enc a = some bs →
    dec (bs ++ rest) = some (a, rest)

namespace Codec

variable {α β : Type}

/-! ## Words -/

/-- A word of `k` bytes, little-endian. -/
def word (k : Nat) (toNat : α → Nat) (ofNat : Nat → α) (hlt : ∀ a, toNat a < 256 ^ k)
    (hinv : ∀ a, ofNat (toNat a) = a) : Codec α where
  enc a := some (leBytes k (toNat a))
  dec bs := if k ≤ bs.length then some (ofNat (ofLeBytes (bs.take k)), bs.drop k) else none
  dec_enc {a bs} rest h := by
    cases h
    have hl : (leBytes k (toNat a)).length = k := length_leBytes k _
    rw [if_pos (by simp), List.take_left' hl, List.drop_left' hl, ofLeBytes_leBytes k _ (hlt a),
      hinv]

def u8 : Codec UInt8 :=
  word 1 UInt8.toNat UInt8.ofNat UInt8.toNat_lt fun _ => UInt8.ofNat_toNat

def u32 : Codec UInt32 :=
  word 4 UInt32.toNat UInt32.ofNat UInt32.toNat_lt fun _ => UInt32.ofNat_toNat

def u64 : Codec UInt64 :=
  word 8 UInt64.toNat UInt64.ofNat UInt64.toNat_lt fun _ => UInt64.ofNat_toNat

/-- A length (`usize as u64`). -/
def len : Codec { n : Nat // n < 2 ^ 64 } :=
  word 8 (·.1) (fun n => ⟨n % 2 ^ 64, Nat.mod_lt _ (by decide)⟩) (fun a => a.2)
    fun a => Subtype.ext (Nat.mod_eq_of_lt a.2)

/-- The raw bytes of an array. -/
def array (n : Nat) : Codec (Vector UInt8 n) where
  enc v := some v.toList
  dec bs := (toArray? n (bs.take n)).map (·, bs.drop n)
  dec_enc {v bs} rest h := by
    cases h
    have hl : v.toList.length = n := by simp
    rw [List.take_left' hl, List.drop_left' hl, toArray?_toList]
    rfl

/-! ## Combinators -/

/-- One value after another. -/
def pair (A : Codec α) (B : Codec β) : Codec (α × β) where
  enc p := (A.enc p.1).bind fun x => (B.enc p.2).map (x ++ ·)
  dec bs := (A.dec bs).bind fun p => (B.dec p.2).map fun q => ((p.1, q.1), q.2)
  dec_enc {p bs} rest h := by
    simp only [Option.bind_eq_some_iff, Option.map_eq_some_iff] at h
    obtain ⟨x, hx, y, hy, rfl⟩ := h
    simp [List.append_assoc, A.dec_enc _ hx, B.dec_enc rest hy]

/-- The values of `β` written as values of `α`. -/
def imap (A : Codec α) (f : β → α) (g : α → Option β) (hg : ∀ b, g (f b) = some b) : Codec β where
  enc b := A.enc (f b)
  dec bs := (A.dec bs).bind fun p => (g p.1).map (·, p.2)
  dec_enc {b bs} rest h := by simp [A.dec_enc rest h, hg]

/-- A tag byte, then the value if there is one. -/
def option (A : Codec α) : Codec (Option α) where
  enc
    | none => some [0]
    | some a => (A.enc a).map (1 :: ·)
  dec
    | [] => none
    | t :: bs =>
        if t = 0 then some (none, bs)
        else if t = 1 then (A.dec bs).map fun p => (some p.1, p.2)
        else none
  dec_enc {o bs} rest h := by
    cases o with
    | none =>
        cases h
        rfl
    | some a =>
        obtain ⟨x, hx, rfl⟩ := Option.map_eq_some_iff.mp h
        simp [A.dec_enc rest hx]

/-- Two variants behind a 32-bit tag. -/
def variant (A : Codec α) (B : Codec β) : Codec (α ⊕ β) where
  enc
    | .inl a => (A.enc a).map (u32le 0 ++ ·)
    | .inr b => (B.enc b).map (u32le 1 ++ ·)
  dec bs := (u32.dec bs).bind fun p =>
    if p.1 = 0 then (A.dec p.2).map fun q => (.inl q.1, q.2)
    else if p.1 = 1 then (B.dec p.2).map fun q => (.inr q.1, q.2)
    else none
  dec_enc {s bs} rest h := by
    have tag : ∀ (t : UInt32) (x : Bytes), u32.dec (u32le t ++ x) = some (t, x) :=
      fun t x => u32.dec_enc x rfl
    cases s with
    | inl a =>
        obtain ⟨x, hx, rfl⟩ := Option.map_eq_some_iff.mp h
        simp [List.append_assoc, tag, A.dec_enc rest hx]
    | inr b =>
        obtain ⟨x, hx, rfl⟩ := Option.map_eq_some_iff.mp h
        simp [List.append_assoc, tag, B.dec_enc rest hx]

/-! ## Sequences -/

/-- Bytes behind their length. -/
def blob : Codec Bytes where
  enc b := if h : b.length < 2 ^ 64 then (len.enc ⟨b.length, h⟩).map (· ++ b) else none
  dec bs := (len.dec bs).bind fun p =>
    if p.1.1 ≤ p.2.length then some (p.2.take p.1, p.2.drop p.1) else none
  dec_enc {b bs} rest h := by
    split at h
    · next hl =>
        obtain ⟨x, hx, rfl⟩ := Option.map_eq_some_iff.mp h
        simp [List.append_assoc, len.dec_enc _ hx]
    · cases h

/-- The values of a list, one after another. -/
def encAll (A : Codec α) : List α → Option Bytes
  | [] => some []
  | a :: l => (A.enc a).bind fun x => (encAll A l).map (x ++ ·)

/-- A given number of values. -/
def decAll (A : Codec α) : Nat → Bytes → Option (List α × Bytes)
  | 0, bs => some ([], bs)
  | n + 1, bs => (A.dec bs).bind fun p => (decAll A n p.2).map fun q => (p.1 :: q.1, q.2)

theorem decAll_encAll (A : Codec α) (rest : Bytes) : ∀ {l : List α} {bs : Bytes},
    encAll A l = some bs → decAll A l.length (bs ++ rest) = some (l, rest)
  | [], _, h => by
      cases h
      rfl
  | a :: l, _, h => by
      simp only [encAll, Option.bind_eq_some_iff, Option.map_eq_some_iff] at h
      obtain ⟨x, hx, y, hy, rfl⟩ := h
      simp [decAll, List.append_assoc, A.dec_enc _ hx, decAll_encAll A rest hy]

/-- The values of a list behind its length. -/
def list (A : Codec α) : Codec (List α) where
  enc l := if h : l.length < 2 ^ 64 then
      (len.enc ⟨l.length, h⟩).bind fun x => (encAll A l).map (x ++ ·)
    else none
  dec bs := (len.dec bs).bind fun p => decAll A p.1 p.2
  dec_enc {l bs} rest h := by
    split at h
    · next hl =>
        simp only [Option.bind_eq_some_iff, Option.map_eq_some_iff] at h
        obtain ⟨x, hx, y, hy, rfl⟩ := h
        simp [List.append_assoc, len.dec_enc _ hx, decAll_encAll A rest hy]
    · cases h

/-- A string, in UTF-8. -/
def string : Codec String := blob.imap utf8 ofUtf8 ofUtf8_utf8

/-- An array behind its length (`serde_bytes` on a fixed-size array). -/
def arrayBlob (n : Nat) : Codec (Vector UInt8 n) := blob.imap Vector.toList (toArray? n) toArray?_toList

section

open Std

variable {K V : Type} [Ord K] [TransOrd K] [LawfulEqOrd K]

/-- A map read from its entries: the last entry of a key stays. -/
def mapOfEntries (l : List (K × V)) : ExtTreeMap K V := l.foldl (fun m p => m.insert p.1 p.2) ∅

theorem mapOfEntries_toList (m : ExtTreeMap K V) : mapOfEntries m.toList = m := by
  refine ExtTreeMap.ext_getElem? fun k => ?_
  have h := getElem?_foldl (actsAt_insertIf (fun _ _ => true) fun (_ : K) (v : V) => v) m ∅ k
  rw [ExtTreeMap.foldl_eq_foldl_toList] at h
  refine Eq.trans (by simp [mapOfEntries]) (h.trans ?_)
  cases m[k]? <;> simp

/-- A map as the sequence of its entries. -/
def map (A : Codec K) (B : Codec V) : Codec (ExtTreeMap K V) :=
  (list (pair A B)).imap ExtTreeMap.toList (fun l => some (mapOfEntries l))
    fun m => congrArg some (mapOfEntries_toList m)

end

/-! ## Values that fit

A value fits if it has an encoding: words always do, a blob or a list up to its length,
and what is built from values that fit does. -/

/-- The value has an encoding. -/
def Fits (A : Codec α) (a : α) : Prop := ∃ bs, A.enc a = some bs

@[simp] theorem fits_word {k : Nat} {toNat : α → Nat} {ofNat : Nat → α}
    {hlt : ∀ a, toNat a < 256 ^ k} {hinv : ∀ a, ofNat (toNat a) = a} (a : α) :
    (word k toNat ofNat hlt hinv).Fits a := ⟨_, rfl⟩

@[simp] theorem fits_u8 (a : UInt8) : u8.Fits a := ⟨_, rfl⟩

@[simp] theorem fits_u32 (a : UInt32) : u32.Fits a := ⟨_, rfl⟩

@[simp] theorem fits_u64 (a : UInt64) : u64.Fits a := ⟨_, rfl⟩

@[simp] theorem fits_array {n : Nat} (v : Vector UInt8 n) : (array n).Fits v := ⟨_, rfl⟩

@[simp] theorem fits_pair {A : Codec α} {B : Codec β} {p : α × β} :
    (pair A B).Fits p ↔ A.Fits p.1 ∧ B.Fits p.2 := by
  simp only [Fits, pair, Option.bind_eq_some_iff, Option.map_eq_some_iff]
  constructor
  · rintro ⟨_, x, hx, y, hy, -⟩
    exact ⟨⟨x, hx⟩, ⟨y, hy⟩⟩
  · rintro ⟨⟨x, hx⟩, ⟨y, hy⟩⟩
    exact ⟨_, x, hx, y, hy, rfl⟩

@[simp] theorem fits_imap {A : Codec α} {f : β → α} {g : α → Option β} {hg : ∀ b, g (f b) = some b}
    {b : β} : (A.imap f g hg).Fits b ↔ A.Fits (f b) := Iff.rfl

@[simp] theorem fits_option_none (A : Codec α) : (option A).Fits none := ⟨_, rfl⟩

@[simp] theorem fits_option_some {A : Codec α} {a : α} : (option A).Fits (some a) ↔ A.Fits a := by
  simp only [Fits, option, Option.map_eq_some_iff]
  constructor
  · rintro ⟨_, x, hx, -⟩
    exact ⟨x, hx⟩
  · rintro ⟨x, hx⟩
    exact ⟨_, x, hx, rfl⟩

theorem fits_option {A : Codec α} {o : Option α} : (option A).Fits o ↔ ∀ a, o = some a → A.Fits a := by
  cases o with
  | none => exact ⟨fun _ => nofun, fun _ => fits_option_none A⟩
  | some a =>
      rw [fits_option_some]
      exact ⟨fun h _ heq => Option.some.inj heq ▸ h, fun h => h a rfl⟩

@[simp] theorem fits_variant_inl {A : Codec α} {B : Codec β} {a : α} :
    (variant A B).Fits (.inl a) ↔ A.Fits a := by
  simp only [Fits, variant, Option.map_eq_some_iff]
  constructor
  · rintro ⟨_, x, hx, -⟩
    exact ⟨x, hx⟩
  · rintro ⟨x, hx⟩
    exact ⟨_, x, hx, rfl⟩

@[simp] theorem fits_variant_inr {A : Codec α} {B : Codec β} {b : β} :
    (variant A B).Fits (.inr b) ↔ B.Fits b := by
  simp only [Fits, variant, Option.map_eq_some_iff]
  constructor
  · rintro ⟨_, x, hx, -⟩
    exact ⟨x, hx⟩
  · rintro ⟨x, hx⟩
    exact ⟨_, x, hx, rfl⟩

@[simp] theorem fits_blob {b : Bytes} : blob.Fits b ↔ b.length < 2 ^ 64 := by
  constructor
  · rintro ⟨_, h⟩
    by_contra hl
    simp only [blob, dif_neg hl] at h
    cases h
  · exact fun h => ⟨_, dif_pos h⟩

@[simp] theorem fits_string {s : String} : string.Fits s ↔ (utf8 s).length < 2 ^ 64 := fits_blob

theorem fits_arrayBlob {n : Nat} (hn : n < 2 ^ 64) (v : Vector UInt8 n) : (arrayBlob n).Fits v :=
  fits_blob.mpr (by rwa [Vector.length_toList])

theorem exists_encAll {A : Codec α} : ∀ {l : List α},
    (∃ bs, encAll A l = some bs) ↔ ∀ a ∈ l, A.Fits a
  | [] => ⟨fun _ => nofun, fun _ => ⟨[], rfl⟩⟩
  | a :: l => by
      rw [List.forall_mem_cons, ← exists_encAll]
      simp only [encAll, Option.bind_eq_some_iff, Option.map_eq_some_iff]
      constructor
      · rintro ⟨_, x, hx, y, hy, -⟩
        exact ⟨⟨x, hx⟩, ⟨y, hy⟩⟩
      · rintro ⟨⟨x, hx⟩, ⟨y, hy⟩⟩
        exact ⟨_, x, hx, y, hy, rfl⟩

@[simp] theorem fits_list {A : Codec α} {l : List α} :
    (list A).Fits l ↔ l.length < 2 ^ 64 ∧ ∀ a ∈ l, A.Fits a := by
  constructor
  · rintro ⟨_, h⟩
    by_cases hl : l.length < 2 ^ 64
    · simp only [list, dif_pos hl, Option.bind_eq_some_iff, Option.map_eq_some_iff] at h
      obtain ⟨_, _, y, hy, -⟩ := h
      exact ⟨hl, exists_encAll.mp ⟨y, hy⟩⟩
    · simp only [list, dif_neg hl] at h
      cases h
  · rintro ⟨hl, h⟩
    obtain ⟨y, hy⟩ := exists_encAll.mpr h
    refine ⟨leBytes 8 l.length ++ y, ?_⟩
    simp only [list, dif_pos hl, len, word, hy, Option.bind_some, Option.map_some]

section

open Std

variable {K V : Type} [Ord K] [TransOrd K] [LawfulEqOrd K]

theorem fits_map {A : Codec K} {B : Codec V} {m : ExtTreeMap K V} :
    (map A B).Fits m ↔ m.size < 2 ^ 64 ∧ ∀ (k : K) (v : V), m[k]? = some v → A.Fits k ∧ B.Fits v := by
  rw [map, fits_imap, fits_list, ExtTreeMap.length_toList]
  refine and_congr_right fun _ => ⟨fun h k v hv => ?_, fun h p hp => ?_⟩
  · exact fits_pair.mp (h (k, v) (ExtTreeMap.mem_toList_iff_getElem?_eq_some.mpr hv))
  · exact fits_pair.mpr (h p.1 p.2 (ExtTreeMap.mem_toList_iff_getElem?_eq_some.mp hp))

end

/-! ## What is read can be written

The readers take no longer lengths than the writers write. -/

/-- Every value that is read fits. -/
def ReadsFit (A : Codec α) : Prop :=
  ∀ (bs : Bytes) (a : α) (rest : Bytes), A.dec bs = some (a, rest) → A.Fits a

theorem readsFit_of_fits {A : Codec α} (h : ∀ a, A.Fits a) : A.ReadsFit :=
  fun _ a _ _ => h a

theorem readsFit_pair {A : Codec α} {B : Codec β} (hA : A.ReadsFit) (hB : B.ReadsFit) :
    (pair A B).ReadsFit := by
  intro bs p rest h
  simp only [pair, Option.bind_eq_some_iff, Option.map_eq_some_iff] at h
  obtain ⟨⟨a, rest₁⟩, ha, ⟨b, rest₂⟩, hb, heq⟩ := h
  cases heq
  exact fits_pair.mpr ⟨hA _ _ _ ha, hB _ _ _ hb⟩

theorem readsFit_imap {A : Codec α} {f : β → α} {g : α → Option β} {hg : ∀ b, g (f b) = some b}
    (hA : A.ReadsFit) (hfg : ∀ a b, A.Fits a → g a = some b → A.Fits (f b)) :
    (A.imap f g hg).ReadsFit := by
  intro bs b rest h
  simp only [imap, Option.bind_eq_some_iff, Option.map_eq_some_iff] at h
  obtain ⟨⟨a, rest₁⟩, ha, b', hb, heq⟩ := h
  cases heq
  exact hfg a b (hA _ _ _ ha) hb

theorem readsFit_option {A : Codec α} (hA : A.ReadsFit) : (option A).ReadsFit := by
  intro bs o rest h
  cases bs with
  | nil => cases h
  | cons t bs =>
      simp only [option] at h
      split at h
      · cases h
        exact fits_option_none A
      · split at h
        · obtain ⟨⟨a, rest₁⟩, ha, heq⟩ := Option.map_eq_some_iff.mp h
          cases heq
          exact fits_option_some.mpr (hA _ _ _ ha)
        · cases h

theorem readsFit_blob : blob.ReadsFit := by
  intro bs b rest h
  obtain ⟨⟨n, rest₁⟩, -, h⟩ := Option.bind_eq_some_iff.mp h
  split at h
  · next hle =>
      cases h
      refine fits_blob.mpr ((List.length_take_le _ _).trans_lt n.2)
  · cases h

theorem readsFit_string : string.ReadsFit :=
  readsFit_imap readsFit_blob fun bs s hbs hs => by rwa [utf8_of_ofUtf8 hs]

theorem readsFit_decAll {A : Codec α} (hA : A.ReadsFit) : ∀ {n : Nat} {bs rest : Bytes} {l : List α},
    decAll A n bs = some (l, rest) → l.length = n ∧ ∀ a ∈ l, A.Fits a
  | 0, _, _, _, h => by
      cases h
      exact ⟨rfl, nofun⟩
  | n + 1, _, _, _, h => by
      simp only [decAll, Option.bind_eq_some_iff, Option.map_eq_some_iff] at h
      obtain ⟨⟨a, rest₁⟩, ha, ⟨l, rest₂⟩, hl, heq⟩ := h
      cases heq
      obtain ⟨hlen, hfits⟩ := readsFit_decAll hA hl
      exact ⟨congrArg (· + 1) hlen, List.forall_mem_cons.mpr ⟨hA _ _ _ ha, hfits⟩⟩

theorem readsFit_list {A : Codec α} (hA : A.ReadsFit) : (list A).ReadsFit := by
  intro bs l rest h
  obtain ⟨⟨n, rest₁⟩, -, h⟩ := Option.bind_eq_some_iff.mp h
  obtain ⟨hlen, hfits⟩ := readsFit_decAll hA h
  exact fits_list.mpr ⟨hlen ▸ n.2, hfits⟩

section

open Std

variable {K V : Type} [Ord K] [TransOrd K] [LawfulEqOrd K]

/-- A map read from entries has no others, and no more of them. -/
theorem mapOfEntries_spec (l : List (K × V)) :
    (mapOfEntries l).size ≤ l.length ∧
      ∀ (k : K) (v : V), (mapOfEntries l)[k]? = some v → (k, v) ∈ l := by
  have h : ∀ (l : List (K × V)) (m : ExtTreeMap K V),
      (l.foldl (fun m p => m.insert p.1 p.2) m).size ≤ m.size + l.length ∧
      ∀ (k : K) (v : V), (l.foldl (fun m p => m.insert p.1 p.2) m)[k]? = some v →
        m[k]? = some v ∨ (k, v) ∈ l := by
    intro l
    induction l with
    | nil => exact fun m => ⟨Nat.le_refl _, fun k v h => .inl h⟩
    | cons p l ih =>
        intro m
        obtain ⟨hsize, hmem⟩ := ih (m.insert p.1 p.2)
        rw [List.foldl_cons, List.length_cons]
        refine ⟨?_, fun k v h => ?_⟩
        · have hle : (m.insert p.1 p.2).size ≤ m.size + 1 := ExtTreeMap.size_insert_le
          omega
        · rcases hmem k v h with h | h
          · rw [ExtTreeMap.getElem?_insert] at h
            split at h
            · next heq =>
                cases h
                rw [← compare_eq_iff_eq.mp heq]
                exact .inr List.mem_cons_self
            · exact .inl h
          · exact .inr (List.mem_cons_of_mem _ h)
  obtain ⟨hsize, hmem⟩ := h l ∅
  rw [ExtTreeMap.size_empty, Nat.zero_add] at hsize
  refine ⟨hsize, fun k v hv => ?_⟩
  exact (hmem k v hv).resolve_left (by rw [ExtTreeMap.getElem?_empty]; nofun)

theorem readsFit_map {A : Codec K} {B : Codec V} (hA : A.ReadsFit) (hB : B.ReadsFit) :
    (map A B).ReadsFit := by
  refine readsFit_imap (readsFit_list (readsFit_pair hA hB)) fun l m hl hm => ?_
  cases hm
  obtain ⟨hlen, hfits⟩ := fits_list.mp hl
  obtain ⟨hsize, hmem⟩ := mapOfEntries_spec l
  rw [fits_list, ExtTreeMap.length_toList]
  refine ⟨hsize.trans_lt hlen, fun p hp => hfits p ?_⟩
  exact hmem p.1 p.2 (ExtTreeMap.mem_toList_iff_getElem?_eq_some.mp hp)

end

/-! ## Whole byte strings -/

/-- Read a value from the front; what follows is ignored. -/
def read (A : Codec α) (bs : Bytes) : Option α := (A.dec bs).map Prod.fst

theorem read_enc (A : Codec α) {a : α} {bs : Bytes} (h : A.enc a = some bs) :
    A.read bs = some a := by
  have := A.dec_enc [] h
  rw [List.append_nil] at this
  rw [read, this]
  rfl

/-! ## Reading the front only -/

/-- What is written for `b` starts with what `C` reads as `c`. -/
def StartsWith {γ : Type} (B : Codec β) (b : β) (C : Codec γ) (c : γ) : Prop :=
  ∀ bs, B.enc b = some bs → ∃ rest, C.dec bs = some (c, rest)

theorem StartsWith.pair {γ : Type} {B : Codec β} {b : β} {C : Codec γ} {c : γ}
    (h : StartsWith B b C c) (A : Codec α) (a : α) :
    StartsWith (A.pair B) (a, b) (A.pair C) (a, c) := by
  intro bs hbs
  simp only [Codec.pair, Option.bind_eq_some_iff, Option.map_eq_some_iff] at hbs
  obtain ⟨x, hx, y, hy, rfl⟩ := hbs
  obtain ⟨rest, hrest⟩ := h y hy
  exact ⟨rest, by simp [Codec.pair, A.dec_enc y hx, hrest]⟩

/-- A sequence starts with its length. -/
theorem startsWith_list (A : Codec α) {l : List α} (hl : l.length < 2 ^ 64) :
    StartsWith (list A) l len ⟨l.length, hl⟩ := by
  intro bs hbs
  simp only [list, dif_pos hl, Option.bind_eq_some_iff, Option.map_eq_some_iff] at hbs
  obtain ⟨x, hx, y, -, rfl⟩ := hbs
  exact ⟨y, len.dec_enc y hx⟩

/-- `A` reads `k` bytes, whatever they are. -/
def Width (A : Codec α) (k : Nat) : Prop :=
  ∀ bs, (A.dec bs).map Prod.snd = if k ≤ bs.length then some (bs.drop k) else none

theorem width_word {k : Nat} {toNat : α → Nat} {ofNat : Nat → α}
    {hlt : ∀ a, toNat a < 256 ^ k} {hinv : ∀ a, ofNat (toNat a) = a} :
    (word k toNat ofNat hlt hinv).Width k := by
  intro bs
  show (if k ≤ bs.length then some (ofNat (ofLeBytes (bs.take k)), bs.drop k) else none).map
    Prod.snd = _
  split <;> rfl

theorem width_u8 : u8.Width 1 := width_word

theorem width_u32 : u32.Width 4 := width_word

theorem width_u64 : u64.Width 8 := width_word

/-- Behind a field of known width, the reader goes on at a known place. -/
theorem map_dec_pair {γ : Type} {A : Codec α} {k : Nat} (hA : A.Width k) (B : Codec β)
    (f : β → γ) (bs : Bytes) :
    ((A.pair B).dec bs).map (fun p => f p.1.2) =
      if k ≤ bs.length then (B.dec (bs.drop k)).map (fun q => f q.1) else none := by
  have h := hA bs
  simp only [pair]
  cases hdec : A.dec bs with
  | none =>
      rw [hdec, Option.map_none] at h
      split_ifs at h ⊢
      rfl
  | some p =>
      rw [hdec, Option.map_some] at h
      split_ifs at h ⊢
      rw [Option.some.injEq] at h
      simp [h, Function.comp_def]

end Codec

end Lib
