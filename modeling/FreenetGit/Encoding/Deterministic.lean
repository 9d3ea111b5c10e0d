/-
# `FreenetGit.Encoding.Deterministic` — the rules of deterministic CBOR

The encoder promises the deterministic subset of CBOR: definite lengths, the shortest
head for every number, map keys in the byte order of their encodings.  These rules
are a relation between values and byte strings that does not mention the encoder
(`Deterministic`); what the constructors build is encoded by them
(`Constructed.deterministic`), and in one way only (`Constructed.encode_prefix`).
The order in which a map is built leaves no trace (`foldl_entry_perm`).
-/
import FreenetGit.Encoding.Canonical

namespace FreenetGit

open Lib

namespace canonical

/-! ## Values from the constructors -/

mutual

/-- A value that the constructors build; a length is one that memory has. -/
inductive Constructed : Value → Prop
  | uint (v : UInt64) : Constructed (.uint v)
  | bytes {b : Bytes} (h : b.length < 2 ^ 64) : Constructed (.bytes b)
  | text {s : String} (h : (utf8 s).length < 2 ^ 64) : Constructed (.text s)
  | array {items : List Value} (h : items.length < 2 ^ 64)
      (hitems : ∀ v ∈ items, Constructed v) : Constructed (.array items)
  | map {b : MapBuilder} (hb : ConstructedBuilder b) (h : b.entries.length < 2 ^ 64) :
      Constructed b.build

/-- A builder with such keys and values. -/
inductive ConstructedBuilder : MapBuilder → Prop
  | default : ConstructedBuilder MapBuilder.default
  | entry {b : MapBuilder} {key value : Value} (hb : ConstructedBuilder b)
      (hkey : Constructed key) (hvalue : Constructed value) :
      ConstructedBuilder (b.entry key value)

end

theorem ConstructedBuilder.textEntry {b : MapBuilder} (hb : ConstructedBuilder b) {key : String}
    {value : Value} (hkey : (utf8 key).length < 2 ^ 64) (hvalue : Constructed value) :
    ConstructedBuilder (b.textEntry key value) :=
  hb.entry (.text hkey) hvalue

theorem BuiltItems.of_forall : ∀ {items : List Value}, (∀ v ∈ items, Built v) → BuiltItems items
  | [], _ => .nil
  | _ :: _, h => .cons (h _ List.mem_cons_self)
      (.of_forall fun v hv => h v (List.mem_cons_of_mem _ hv))

theorem BuiltEntries.insert {k v : Value} (hk : Built k) (hv : Built v) :
    ∀ {es : List (Bytes × Value)}, BuiltEntries es → BuiltEntries (insertEntry k.encode v es)
  | _, .nil => .cons hk hv .nil
  | _, .cons hk' hv' hes => by
      unfold insertEntry
      split
      · exact .cons hk hv (.cons hk' hv' hes)
      · exact .cons hk hv hes
      · exact .cons hk' hv' (hes.insert hk hv)

mutual

theorem Constructed.built : ∀ {v : Value}, Constructed v → Built v
  | _, .uint v => .uint v
  | _, .bytes h => .bytes h
  | _, .text h => .text h
  | _, .array h hitems => .array h (.of_forall fun v hv => (hitems v hv).built)
  | _, .map hb h => .map h hb.built

theorem ConstructedBuilder.built : ∀ {b : MapBuilder}, ConstructedBuilder b →
    BuiltEntries b.entries
  | _, .default => .nil
  | _, .entry hb hkey hvalue => hb.built.insert hkey.built hvalue.built

end

/-! ## One reading -/

/-- **No encoding is a proper prefix of another**: one that starts with an encoding is of the
same value. -/
theorem Constructed.encode_prefix {v w : Value} (hv : Constructed v) (hw : Constructed w)
    (h : v.encode <+: w.encode) : v = w := by
  obtain ⟨rest, h⟩ := h
  exact (hv.built.encode_append_inj hw.built (h.trans (List.append_nil _).symm)).1

/-! ## The order of insertion -/

theorem insertEntry_cons_lt {k c : Bytes} (v x : Value) (es : List (Bytes × Value))
    (h : compare k c = .lt) : insertEntry k v ((c, x) :: es) = (k, v) :: (c, x) :: es := by
  rw [insertEntry, h]

theorem insertEntry_cons_self {k : Bytes} (v x : Value) (es : List (Bytes × Value)) :
    insertEntry k v ((k, x) :: es) = (k, v) :: es := by
  rw [insertEntry, show compare k k = .eq from Std.ReflCmp.compare_self]

theorem insertEntry_cons_gt {k c : Bytes} (v x : Value) (es : List (Bytes × Value))
    (h : compare k c = .gt) :
    insertEntry k v ((c, x) :: es) = (c, x) :: insertEntry k v es := by
  rw [insertEntry, h]

theorem insertEntry_comm_of_lt {k k' : Bytes} {v v' : Value} (hlt : compare k k' = .lt) :
    ∀ es : List (Bytes × Value),
      insertEntry k v (insertEntry k' v' es) = insertEntry k' v' (insertEntry k v es)
  | [] => by
      change insertEntry k v [(k', v')] = insertEntry k' v' [(k, v)]
      rw [insertEntry_cons_lt _ _ _ hlt, insertEntry_cons_gt _ _ _ (Std.OrientedCmp.gt_of_lt hlt)]
      rfl
  | (c, x) :: es => by
      have hgt : compare k' k = .gt := Std.OrientedCmp.gt_of_lt hlt
      cases hc : compare k' c with
      | lt =>
          have hkc : compare k c = .lt := Std.TransCmp.lt_trans hlt hc
          rw [insertEntry_cons_lt _ _ _ hc, insertEntry_cons_lt _ _ _ hlt,
            insertEntry_cons_lt _ _ _ hkc, insertEntry_cons_gt _ _ _ hgt,
            insertEntry_cons_lt _ _ _ hc]
      | eq =>
          obtain rfl := Std.compare_eq_iff_eq.mp hc
          rw [insertEntry_cons_self, insertEntry_cons_lt _ _ _ hlt, insertEntry_cons_lt _ _ _ hlt,
            insertEntry_cons_gt _ _ _ hgt, insertEntry_cons_self]
      | gt =>
          rw [insertEntry_cons_gt _ _ _ hc]
          cases hkc : compare k c with
          | lt =>
              rw [insertEntry_cons_lt _ _ _ hkc, insertEntry_cons_lt _ _ _ hkc,
                insertEntry_cons_gt _ _ _ hgt, insertEntry_cons_gt _ _ _ hc]
          | eq =>
              obtain rfl := Std.compare_eq_iff_eq.mp hkc
              rw [insertEntry_cons_self, insertEntry_cons_self, insertEntry_cons_gt _ _ _ hgt]
          | gt =>
              rw [insertEntry_cons_gt _ _ _ hkc, insertEntry_cons_gt _ _ _ hkc,
                insertEntry_cons_gt _ _ _ hc, insertEntry_comm_of_lt hlt es]

/-- Entries under different keys can be inserted in either order. -/
theorem insertEntry_comm {k k' : Bytes} {v v' : Value} (hne : k ≠ k') (es : List (Bytes × Value)) :
    insertEntry k v (insertEntry k' v' es) = insertEntry k' v' (insertEntry k v es) := by
  cases h : compare k k' with
  | lt => exact insertEntry_comm_of_lt h es
  | eq => exact absurd (Std.compare_eq_iff_eq.mp h) hne
  | gt => exact (insertEntry_comm_of_lt (Std.OrientedCmp.lt_of_gt h) es).symm

/-- **The order of insertion** of different keys leaves no trace. -/
theorem foldl_entry_perm {l l' : List (Value × Value)} (b : MapBuilder) (h : l.Perm l')
    (hkeys : ∀ e ∈ l, Constructed e.1) (hnodup : (l.map (·.1)).Nodup) :
    l.foldl (fun b e => b.entry e.1 e.2) b = l'.foldl (fun b e => b.entry e.1 e.2) b := by
  refine h.foldl_eq' (fun x hx y hy b => ?_) b
  by_cases hkey : x.1 = y.1
  · rw [List.inj_on_of_nodup_map hnodup hx hy hkey]
  · have hne : y.1.encode ≠ x.1.encode := fun he =>
      hkey ((hkeys y hy).built.encode_inj (hkeys x hx).built he).symm
    exact congrArg MapBuilder.mk (insertEntry_comm hne b.entries)

/-! ## Ascending keys -/

/-- The keys stand in ascending order. -/
def Ascending (es : List (Bytes × Value)) : Prop := (es.map (·.1)).Pairwise (· < ·)

/-- The keys after an insertion are the old ones and the new one. -/
theorem key_of_mem_insertEntry {k : Bytes} {v : Value} {e : Bytes × Value} :
    ∀ {es : List (Bytes × Value)}, e ∈ insertEntry k v es → e.1 = k ∨ e ∈ es
  | [], h => .inl (congrArg Prod.fst (List.mem_singleton.mp h))
  | (c, x) :: es, h => by
      unfold insertEntry at h
      split at h
      · rcases List.mem_cons.mp h with rfl | h
        · exact .inl rfl
        · exact .inr h
      · rcases List.mem_cons.mp h with rfl | h
        · exact .inl rfl
        · exact .inr (List.mem_cons_of_mem _ h)
      · rcases List.mem_cons.mp h with rfl | h
        · exact .inr List.mem_cons_self
        · exact (key_of_mem_insertEntry h).imp_right (List.mem_cons_of_mem _)

theorem ascending_cons {k : Bytes} {v : Value} {es : List (Bytes × Value)} :
    Ascending ((k, v) :: es) ↔ (∀ e ∈ es, k < e.1) ∧ Ascending es := by
  simp only [Ascending, List.map_cons, List.pairwise_cons, List.forall_mem_map]

theorem Ascending.insert {k : Bytes} {v : Value} : ∀ {es : List (Bytes × Value)}, Ascending es →
    Ascending (insertEntry k v es)
  | [], _ => ascending_cons.mpr ⟨nofun, .nil⟩
  | (c, x) :: es, h => by
      obtain ⟨hfirst, hes⟩ := ascending_cons.mp h
      cases hc : compare k c with
      | lt =>
          have hkc := compare_bytes_lt.mp hc
          rw [insertEntry_cons_lt _ _ _ hc]
          refine ascending_cons.mpr ⟨fun e he => ?_, h⟩
          rcases List.mem_cons.mp he with rfl | he
          · exact hkc
          · exact List.lt_trans hkc (hfirst e he)
      | eq =>
          obtain rfl := Std.compare_eq_iff_eq.mp hc
          rw [insertEntry_cons_self]
          exact ascending_cons.mpr ⟨hfirst, hes⟩
      | gt =>
          have hck := compare_bytes_lt.mp (Std.OrientedCmp.lt_of_gt hc)
          rw [insertEntry_cons_gt _ _ _ hc]
          refine ascending_cons.mpr ⟨fun e he => ?_, hes.insert⟩
          rcases key_of_mem_insertEntry he with he | he
          · exact he ▸ hck
          · exact hfirst e he

theorem ConstructedBuilder.ascending : ∀ {b : MapBuilder}, ConstructedBuilder b →
    Ascending b.entries
  | _, .default => .nil
  | _, .entry hb _ _ => hb.ascending.insert

/-! ## Heads -/

/-- The heads of a major type and a number: the number is below 24 and stands in the first
byte, or it follows in 1, 2, 4 or 8 bytes. -/
inductive IsHead (major : UInt8) (n : Nat) : Bytes → Prop
  | direct (h : n < 24) : IsHead major n [major <<< 5 ||| UInt8.ofNat n]
  | wide (i : Fin 4) (h : n < 256 ^ 2 ^ i.val) :
      IsHead major n ((major <<< 5 ||| UInt8.ofNat (24 + i.val)) :: (leBytes (2 ^ i.val) n).reverse)

/-- No head of the number is shorter. -/
def ShortestHead (major : UInt8) (n : Nat) (hd : Bytes) : Prop :=
  IsHead major n hd ∧ ∀ hd', IsHead major n hd' → hd.length ≤ hd'.length

theorem length_writeUint (major : UInt8) (v : UInt64) :
    (writeUint major v).length = headWidth v.toNat + 1 := by
  rw [writeUint_eq, List.length_cons, List.length_reverse, length_leBytes]

/-- The width is the least of those a number fits in. -/
theorem headWidth_le {n : Nat} (i : Fin 4) (h : n < 256 ^ 2 ^ i.val) : headWidth n ≤ 2 ^ i.val := by
  unfold headWidth
  fin_cases i <;> simp at h ⊢ <;> split_ifs <;> omega

theorem isHead_writeUint (major : UInt8) (v : UInt64) : IsHead major v.toNat (writeUint major v) := by
  rw [writeUint_eq]
  have hv := v.toNat_lt
  unfold headInfo headWidth
  split_ifs with h₁ h₂ h₃ h₄
  · exact .direct h₁
  · exact .wide 0 h₂
  · exact .wide 1 h₃
  · exact .wide 2 h₄
  · exact .wide 3 hv

/-- **`write_uint` writes the shortest head.** -/
theorem shortestHead_writeUint (major : UInt8) (v : UInt64) :
    ShortestHead major v.toNat (writeUint major v) := by
  refine ⟨isHead_writeUint major v, fun hd h => ?_⟩
  rw [length_writeUint]
  cases h with
  | direct h =>
      have hw : headWidth v.toNat = 0 := if_pos h
      rw [hw]
      rfl
  | wide i h =>
      rw [List.length_cons, List.length_reverse, length_leBytes]
      exact Nat.succ_le_succ (headWidth_le i h)

/-- Heads of one length are equal. -/
theorem IsHead.eq_of_length {major : UInt8} {n : Nat} {hd hd' : Bytes} (h : IsHead major n hd)
    (h' : IsHead major n hd') (hlen : hd.length = hd'.length) : hd = hd' := by
  cases h with
  | direct _ =>
      cases h' with
      | direct _ => rfl
      | wide j _ => simp at hlen
  | wide i _ =>
      cases h' with
      | direct _ => simp at hlen
      | wide j _ =>
          rw [List.length_cons, List.length_cons, List.length_reverse, List.length_reverse,
            length_leBytes, length_leBytes, Nat.succ_inj] at hlen
          obtain rfl := Fin.val_injective (Nat.pow_right_injective (le_refl 2) hlen)
          rfl

theorem IsHead.lt {major : UInt8} {n : Nat} {hd : Bytes} (h : IsHead major n hd) : n < 2 ^ 64 := by
  cases h with
  | direct h => omega
  | wide i h =>
      refine h.trans_le ?_
      have hi : 2 ^ i.val ≤ 2 ^ 3 := Nat.pow_le_pow_right (by omega) (by omega)
      exact (Nat.pow_le_pow_right (by omega) hi).trans_eq rfl

/-- There is one shortest head, for numbers of 64 bits. -/
theorem ShortestHead.eq_writeUint {major : UInt8} {n : Nat} {hd : Bytes}
    (h : ShortestHead major n hd) : hd = writeUint major (len64 n) := by
  have hn : (len64 n).toNat = n := UInt64.toNat_ofNat_of_lt' h.1.lt
  have hw := shortestHead_writeUint major (len64 n)
  rw [hn] at hw
  exact h.1.eq_of_length hw.1 (le_antisymm (h.2 _ hw.1) (hw.2 _ h.1))

theorem shortestHead_len64 (major : UInt8) {n : Nat} (h : n < 2 ^ 64) :
    ShortestHead major n (writeUint major (len64 n)) := by
  have hw := shortestHead_writeUint major (len64 n)
  rwa [show (len64 n).toNat = n from UInt64.toNat_ofNat_of_lt' h] at hw

/-! ## Deterministic encodings -/

mutual

/-- The bytes are an encoding of the value by the rules. -/
inductive Deterministic : Value → Bytes → Prop
  | uint {v : UInt64} {hd : Bytes} (h : ShortestHead 0 v.toNat hd) : Deterministic (.uint v) hd
  | bytes {b hd : Bytes} (h : ShortestHead 2 b.length hd) : Deterministic (.bytes b) (hd ++ b)
  | text {s : String} {hd : Bytes} (h : ShortestHead 3 (utf8 s).length hd) :
      Deterministic (.text s) (hd ++ utf8 s)
  | array {items : List Value} {hd body : Bytes} (h : ShortestHead 4 items.length hd)
      (hitems : DeterministicItems items body) : Deterministic (.array items) (hd ++ body)
  | map {m : List (Bytes × Value)} {hd body : Bytes} (h : ShortestHead 5 m.length hd)
      (hkeys : Ascending m) (hentries : DeterministicEntries m body) :
      Deterministic (.map m) (hd ++ body)

inductive DeterministicItems : List Value → Bytes → Prop
  | nil : DeterministicItems [] []
  | cons {v : Value} {vs : List Value} {x y : Bytes} (hv : Deterministic v x)
      (hvs : DeterministicItems vs y) : DeterministicItems (v :: vs) (x ++ y)

/-- A key stands before its value, encoded by the same rules. -/
inductive DeterministicEntries : List (Bytes × Value) → Bytes → Prop
  | nil : DeterministicEntries [] []
  | cons {k v : Value} {es : List (Bytes × Value)} {kb x y : Bytes} (hk : Deterministic k kb)
      (hv : Deterministic v x) (hes : DeterministicEntries es y) :
      DeterministicEntries ((kb, v) :: es) (kb ++ x ++ y)

end

mutual

/-- The rules leave no choice. -/
theorem Deterministic.eq_encode : ∀ {v : Value} {bs : Bytes}, Deterministic v bs → bs = v.encode
  | _, _, .uint (v := v) h => by
      rw [h.eq_writeUint, Value.encode, len64, UInt64.ofNat_toNat]
  | _, _, .bytes h => by rw [h.eq_writeUint, Value.encode]
  | _, _, .text h => by rw [h.eq_writeUint, Value.encode]
  | _, _, .array h hitems => by rw [h.eq_writeUint, hitems.eq_encode, Value.encode]
  | _, _, .map h _ hentries => by rw [h.eq_writeUint, hentries.eq_encode, Value.encode]

theorem DeterministicItems.eq_encode : ∀ {items : List Value} {bs : Bytes},
    DeterministicItems items bs → bs = encodeItems items
  | _, _, .nil => rfl
  | _, _, .cons hv hvs => by rw [hv.eq_encode, hvs.eq_encode, encodeItems]

theorem DeterministicEntries.eq_encode : ∀ {es : List (Bytes × Value)} {bs : Bytes},
    DeterministicEntries es bs → bs = encodeEntries es
  | _, _, .nil => rfl
  | _, _, .cons _ hv hes => by rw [hv.eq_encode, hes.eq_encode, encodeEntries]

end

theorem DeterministicItems.of_forall : ∀ {items : List Value},
    (∀ v ∈ items, Deterministic v v.encode) → DeterministicItems items (encodeItems items)
  | [], _ => .nil
  | _ :: _, h => .cons (h _ List.mem_cons_self)
      (.of_forall fun v hv => h v (List.mem_cons_of_mem _ hv))

theorem DeterministicEntries.insert {k v : Value} (hk : Deterministic k k.encode)
    (hv : Deterministic v v.encode) : ∀ {es : List (Bytes × Value)} {bs : Bytes},
    DeterministicEntries es bs → ∃ bs', DeterministicEntries (insertEntry k.encode v es) bs'
  | _, _, .nil => ⟨_, .cons hk hv .nil⟩
  | _, _, .cons hk' hv' hes => by
      unfold insertEntry
      split
      · exact ⟨_, .cons hk hv (.cons hk' hv' hes)⟩
      · exact ⟨_, .cons hk hv hes⟩
      · obtain ⟨bs', hes'⟩ := hes.insert hk hv
        exact ⟨_, .cons hk' hv' hes'⟩

mutual

/-- **The encoder follows the rules.** -/
theorem Constructed.deterministic : ∀ {v : Value}, Constructed v → Deterministic v v.encode
  | _, .uint v => .uint (shortestHead_writeUint 0 v)
  | _, .bytes h => .bytes (shortestHead_len64 2 h)
  | _, .text h => .text (shortestHead_len64 3 h)
  | _, .array h hitems => .array (shortestHead_len64 4 h)
      (.of_forall fun v hv => (hitems v hv).deterministic)
  | _, .map hb h => by
      obtain ⟨bs, hes⟩ := hb.deterministic
      have hbs := hes.eq_encode
      subst hbs
      exact .map (shortestHead_len64 5 h) hb.ascending hes

theorem ConstructedBuilder.deterministic : ∀ {b : MapBuilder}, ConstructedBuilder b →
    ∃ bs, DeterministicEntries b.entries bs
  | _, .default => ⟨_, .nil⟩
  | _, .entry hb hkey hvalue => by
      obtain ⟨bs, hes⟩ := hb.deterministic
      exact hes.insert hkey.deterministic hvalue.deterministic

end

theorem Constructed.deterministic_iff {v : Value} (h : Constructed v) (bs : Bytes) :
    Deterministic v bs ↔ bs = v.encode :=
  ⟨Deterministic.eq_encode, fun hbs => hbs ▸ h.deterministic⟩

end canonical

end FreenetGit
