/-
# `Lib.Base58` — base58 with leading zeros

Each leading zero byte is written as a `1`, and what follows as the digits of the
number it denotes.  The encoding is ASCII and at least as long as its input
(`length_le_base58`).
-/
import FreenetGit.Lib.Bytes

namespace Lib

/-- The digits, without `0`, `O`, `I` and `l`. -/
def base58Alphabet : List Char :=
  "123456789ABCDEFGHJKLMNPQRSTUVWXYZabcdefghijkmnopqrstuvwxyz".toList

/-- A digit; the default is not reached. -/
def base58Digit (d : Nat) : Char := base58Alphabet.getD d '1'

/-- The number a big-endian byte string denotes. -/
def ofBeBytes (bs : Bytes) : Nat := ofLeBytes bs.reverse

/-- The characters of the encoding. -/
def base58Chars (bs : Bytes) : List Char :=
  List.replicate (bs.takeWhile (· = 0)).length '1' ++
    (Nat.digits 58 (ofBeBytes (bs.dropWhile (· = 0)))).reverse.map base58Digit

def base58 (bs : Bytes) : String := String.ofList (base58Chars bs)

/-! ## The characters -/

theorem base58Alphabet_ascii : ∀ c ∈ base58Alphabet, c.utf8Size = 1 := by
  have h : base58Alphabet.all (fun c => c.utf8Size == 1) = true := by decide
  exact fun c hc => eq_of_beq (List.all_eq_true.mp h c hc)

theorem one_mem_base58Alphabet : '1' ∈ base58Alphabet := by decide

theorem base58Digit_mem (d : Nat) : base58Digit d ∈ base58Alphabet := by
  unfold base58Digit
  by_cases h : d < base58Alphabet.length
  · rw [List.getD_eq_getElem _ _ h]
    exact List.getElem_mem h
  · rw [List.getD_eq_default _ _ (Nat.not_lt.mp h)]
    exact one_mem_base58Alphabet

theorem mem_base58Chars {bs : Bytes} {c : Char} (h : c ∈ base58Chars bs) : c ∈ base58Alphabet := by
  rcases List.mem_append.mp h with h | h
  · rw [(List.mem_replicate.mp h).2]
    exact one_mem_base58Alphabet
  · obtain ⟨d, -, rfl⟩ := List.mem_map.mp h
    exact base58Digit_mem d

/-! ## The length -/

theorem ofLeBytes_append : ∀ bs cs : Bytes,
    ofLeBytes (bs ++ cs) = ofLeBytes bs + 256 ^ bs.length * ofLeBytes cs
  | [], cs => by simp [ofLeBytes]
  | b :: bs, cs => by
      rw [List.cons_append, ofLeBytes, ofLeBytes, ofLeBytes_append bs cs, List.length_cons, pow_succ]
      ring

/-- A number whose first byte is not zero has no shorter form. -/
theorem pow_le_ofBeBytes {b : UInt8} (hb : b ≠ 0) (bs : Bytes) :
    256 ^ bs.length ≤ ofBeBytes (b :: bs) := by
  have hpos : 1 ≤ b.toNat := Nat.one_le_iff_ne_zero.mpr fun h => hb (UInt8.toNat_inj.mp h)
  rw [ofBeBytes, List.reverse_cons, ofLeBytes_append, List.length_reverse]
  calc 256 ^ bs.length = 256 ^ bs.length * 1 := (mul_one _).symm
    _ ≤ 256 ^ bs.length * ofLeBytes [b] := Nat.mul_le_mul_left _ hpos
    _ ≤ _ := Nat.le_add_left _ _

/-- The digits of a number without leading zero bytes are as many as its bytes. -/
theorem length_le_digits : ∀ {bs : Bytes}, (∀ b, bs.head? = some b → b ≠ 0) →
    bs.length ≤ (Nat.digits 58 (ofBeBytes bs)).length
  | [], _ => Nat.zero_le _
  | b :: bs, h => by
      refine (Nat.lt_digits_length_iff (by decide) _).mpr ?_
      calc 58 ^ bs.length ≤ 256 ^ bs.length := Nat.pow_le_pow_left (by decide) _
        _ ≤ ofBeBytes (b :: bs) := pow_le_ofBeBytes (h b rfl) bs

/-- **The encoding is at least as long as its input.** -/
theorem length_le_base58Chars (bs : Bytes) : bs.length ≤ (base58Chars bs).length := by
  have hhead : ∀ b, (bs.dropWhile (· = 0)).head? = some b → b ≠ 0 := by
    intro b hb
    have h := List.head?_dropWhile_not (fun b : UInt8 => decide (b = 0)) bs
    rw [hb] at h
    exact of_decide_eq_false h
  have hlen := length_le_digits hhead
  rw [base58Chars, List.length_append, List.length_replicate, List.length_map, List.length_reverse]
  calc bs.length = (bs.takeWhile (· = 0) ++ bs.dropWhile (· = 0)).length := by
        rw [List.takeWhile_append_dropWhile]
    _ = (bs.takeWhile (· = 0)).length + (bs.dropWhile (· = 0)).length := List.length_append
    _ ≤ _ := Nat.add_le_add_left hlen _

end Lib
