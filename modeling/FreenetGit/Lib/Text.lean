/-
# `Lib.Text` — bytes read as text

`String::from_utf8_lossy` as a machine that reads one byte at a time: between
characters it is `ground`, inside one it holds what the next byte may be.  An
ill-formed sequence becomes one U+FFFD and the byte that broke it is read again
as the start of a character.  A byte below 128 always ends what came before it
and stands for itself, so a text can be cut at such a byte before decoding it
(`decodeFrom_append_ascii`), and what begins with ASCII after decoding began
with it before (`isPrefix_lossy_iff`).  `lines` and `trim` are those of `str`, and `debug` is
its `Debug`; `word` is what stands before the first space.
-/
import FreenetGit.Lib.Bytes

namespace Lib

/-! ## Lossy UTF-8 -/

/-- U+FFFD. -/
def replacement : Char := Char.ofNat 0xFFFD

/-- The character of a scalar value. -/
def scalarChar (n : Nat) : Char := if n.isValidChar then Char.ofNat n else replacement

/-- Inside a character: `more` continuation bytes follow the next one, which
must lie in `lo ..= hi`; `acc` is the value read so far.  The character will not
be an ASCII one. -/
structure Pending where
  more : Nat
  lo : Nat
  hi : Nat
  acc : Nat
  ascii : 0x80 ≤ lo
  large : 0x80 ≤ acc * 64 ^ (more + 1) + (lo - 0x80) * 64 ^ more

inductive Utf8State where
  | ground
  | pending (p : Pending)

/-- The start of a character, with the characters it completes. -/
def lead (b : Nat) : List Char × Utf8State :=
  if b < 0x80 then ([Char.ofNat b], .ground)
  else if h : 0xC2 ≤ b ∧ b ≤ 0xDF then ([], .pending ⟨0, 0x80, 0xBF, b - 0xC0, by omega, by omega⟩)
  else if b = 0xE0 then ([], .pending ⟨1, 0xA0, 0xBF, 0, by omega, by omega⟩)
  else if h : 0xE1 ≤ b ∧ b ≤ 0xEC then
    ([], .pending ⟨1, 0x80, 0xBF, b - 0xE0, by omega, by omega⟩)
  else if b = 0xED then ([], .pending ⟨1, 0x80, 0x9F, 0xD, by omega, by omega⟩)
  else if h : 0xEE ≤ b ∧ b ≤ 0xEF then
    ([], .pending ⟨1, 0x80, 0xBF, b - 0xE0, by omega, by omega⟩)
  else if b = 0xF0 then ([], .pending ⟨2, 0x90, 0xBF, 0, by omega, by omega⟩)
  else if h : 0xF1 ≤ b ∧ b ≤ 0xF3 then
    ([], .pending ⟨2, 0x80, 0xBF, b - 0xF0, by omega, by omega⟩)
  else if b = 0xF4 then ([], .pending ⟨2, 0x80, 0x8F, 4, by omega, by omega⟩)
  else ([replacement], .ground)

/-- A continuation byte that is not the last one. -/
def Pending.next (p : Pending) (n b : Nat) (hn : p.more = n + 1) (hb : p.lo ≤ b) : Pending where
  more := n
  lo := 0x80
  hi := 0xBF
  acc := p.acc * 64 + (b - 0x80)
  ascii := le_refl _
  large := by
    have h := p.large
    have hsub : p.lo - 0x80 ≤ b - 0x80 := by omega
    have hmul := Nat.mul_le_mul_right (64 ^ (n + 1)) hsub
    have hsplit : (p.acc * 64 + (b - 0x80)) * 64 ^ (n + 1) =
        p.acc * 64 ^ (n + 1 + 1) + (b - 0x80) * 64 ^ (n + 1) := by ring
    rw [hn] at h
    omega

/-- One byte. -/
def utf8Step : Utf8State → Nat → List Char × Utf8State
  | .ground, b => lead b
  | .pending p, b =>
      if h : p.lo ≤ b ∧ b ≤ p.hi then
        match hm : p.more with
        | 0 => ([scalarChar (p.acc * 64 + (b - 0x80))], .ground)
        | n + 1 => ([], .pending (p.next n b hm h.1))
      else (replacement :: (lead b).1, (lead b).2)

/-- Decode from a state; an unfinished character is a U+FFFD. -/
def decodeFrom : Utf8State → Bytes → List Char
  | .ground, [] => []
  | .pending _, [] => [replacement]
  | s, b :: bs => (utf8Step s b.toNat).1 ++ decodeFrom (utf8Step s b.toNat).2 bs

/-- `String::from_utf8_lossy`, as characters. -/
def lossy (bs : Bytes) : List Char := decodeFrom .ground bs

theorem decodeFrom_cons (s : Utf8State) (b : UInt8) (bs : Bytes) :
    decodeFrom s (b :: bs) = (utf8Step s b.toNat).1 ++ decodeFrom (utf8Step s b.toNat).2 bs := by
  cases s <;> rfl

theorem lead_ascii {b : Nat} (h : b < 0x80) : lead b = ([Char.ofNat b], .ground) := by
  rw [lead, if_pos h]

/-- An ASCII byte ends the character before it and stands for itself. -/
theorem utf8Step_ascii (s : Utf8State) {b : Nat} (h : b < 0x80) :
    utf8Step s b = (decodeFrom s [] ++ [Char.ofNat b], .ground) := by
  cases s with
  | ground => exact lead_ascii h
  | pending p =>
      have hlo : ¬ (p.lo ≤ b ∧ b ≤ p.hi) := by
        have := p.ascii
        omega
      rw [utf8Step, dif_neg hlo, lead_ascii h]
      rfl

/-- **A text is cut at an ASCII byte** before it is decoded. -/
theorem decodeFrom_append_ascii {b : UInt8} (h : b.toNat < 0x80) (ys : Bytes) :
    ∀ (s : Utf8State) (xs : Bytes),
      decodeFrom s (xs ++ b :: ys) = decodeFrom s xs ++ Char.ofNat b.toNat :: lossy ys
  | s, [] => by
      rw [List.nil_append, decodeFrom_cons, utf8Step_ascii s h, List.append_assoc]
      rfl
  | s, x :: xs => by
      rw [List.cons_append, decodeFrom_cons, decodeFrom_cons, decodeFrom_append_ascii h ys,
        List.append_assoc]

theorem lossy_append_ascii {b : UInt8} (h : b.toNat < 0x80) (xs ys : Bytes) :
    lossy (xs ++ b :: ys) = lossy xs ++ Char.ofNat b.toNat :: lossy ys :=
  decodeFrom_append_ascii h ys .ground xs

theorem scalarChar_large {n : Nat} (h : 0x80 ≤ n) : 0x80 ≤ (scalarChar n).toNat := by
  rw [scalarChar]
  split
  · next hv =>
      rw [Char.toNat_ofNat, if_pos hv]
      exact h
  · decide

/-- A byte that is not ASCII starts a character or is ill-formed. -/
theorem lead_pending {b : Nat} (h : 0x80 ≤ b) :
    (∃ p, lead b = ([], .pending p)) ∨ lead b = ([replacement], .ground) := by
  unfold lead
  rw [if_neg (by omega)]
  repeat' first
    | exact .inl ⟨_, rfl⟩
    | exact .inr rfl
    | split

/-- It completes no ASCII character. -/
theorem lead_large {b : Nat} (h : 0x80 ≤ b) : ∀ c ∈ (lead b).1, 0x80 ≤ c.toNat := by
  intro c hc
  rcases lead_pending h with ⟨p, hp⟩ | hp
  · rw [hp] at hc
    cases hc
  · rw [hp] at hc
    rw [List.mem_singleton.mp hc]
    decide

/-- What a byte completes is not ASCII, or is the byte itself. -/
theorem mem_utf8Step {s : Utf8State} {b : Nat} {c : Char} (h : c ∈ (utf8Step s b).1) :
    0x80 ≤ c.toNat ∨ (b < 0x80 ∧ c = Char.ofNat b) := by
  by_cases hb : b < 0x80
  · rw [utf8Step_ascii s hb] at h
    rcases List.mem_append.mp h with h | h
    · cases s with
      | ground => cases h
      | pending p =>
          rw [List.mem_singleton.mp h]
          exact .inl (by decide)
    · exact .inr ⟨hb, List.mem_singleton.mp h⟩
  · left
    have hb : 0x80 ≤ b := by omega
    cases s with
    | ground => exact lead_large hb c h
    | pending p =>
        rw [utf8Step] at h
        split at h
        · next hin =>
            split at h
            · next hm =>
                rw [List.mem_singleton.mp h]
                have hl := p.large
                rw [hm] at hl
                exact scalarChar_large (by omega)
            · cases h
        · rcases List.mem_cons.mp h with rfl | h
          · decide
          · exact lead_large hb c h

/-- **Every ASCII character of a decoded text** was a byte of it. -/
theorem mem_decodeFrom {c : Char} (hc : c.toNat < 0x80) :
    ∀ (s : Utf8State) (bs : Bytes), c ∈ decodeFrom s bs → ∃ b ∈ bs, Char.ofNat b.toNat = c
  | .ground, [], h => nomatch h
  | .pending _, [], h => by
      rw [List.mem_singleton.mp h] at hc
      exact absurd hc (by decide)
  | s, b :: bs, h => by
      rw [decodeFrom_cons] at h
      rcases List.mem_append.mp h with h | h
      · rcases mem_utf8Step h with h | ⟨-, h⟩
        · omega
        · exact ⟨b, List.mem_cons_self, h.symm⟩
      · rcases mem_decodeFrom hc _ bs h with ⟨x, hx, h⟩
        exact ⟨x, List.mem_cons_of_mem _ hx, h⟩

/-- The rest of a character that is not ASCII. -/
theorem decodeFrom_pending (p : Pending) :
    ∀ bs : Bytes, ∃ c cs, decodeFrom (.pending p) bs = c :: cs ∧ 0x80 ≤ c.toNat
  | [] => ⟨replacement, [], rfl, by decide⟩
  | b :: bs => by
      rw [decodeFrom_cons, utf8Step]
      split
      · split
        · next hin hm =>
            have hl := p.large
            rw [hm] at hl
            exact ⟨_, _, rfl, scalarChar_large (by omega)⟩
        · exact decodeFrom_pending _ bs
      · exact ⟨_, _, rfl, by decide⟩

/-- A text whose first byte is not ASCII starts with a character that is not. -/
theorem lossy_cons_large {b : UInt8} (h : 0x80 ≤ b.toNat) (bs : Bytes) :
    ∃ c cs, lossy (b :: bs) = c :: cs ∧ 0x80 ≤ c.toNat := by
  rw [lossy, decodeFrom_cons, utf8Step]
  rcases lead_pending h with ⟨p, hp⟩ | hp
  · rw [hp]
    exact decodeFrom_pending p bs
  · rw [hp]
    exact ⟨_, _, rfl, by decide⟩

theorem lossy_cons_ascii {b : UInt8} (h : b.toNat < 0x80) (bs : Bytes) :
    lossy (b :: bs) = Char.ofNat b.toNat :: lossy bs :=
  lossy_append_ascii h [] bs

theorem toNat_ofNat_byte (b : UInt8) : (Char.ofNat b.toNat).toNat = b.toNat := by
  have hlt := b.toNat_lt
  rw [Char.toNat_ofNat, if_pos (.inl (by omega))]

theorem ofNat_byte_inj {a b : UInt8} (h : Char.ofNat a.toNat = Char.ofNat b.toNat) : a = b := by
  have h := congrArg Char.toNat h
  rw [toNat_ofNat_byte, toNat_ofNat_byte] at h
  exact UInt8.toNat_inj.mp h

/-! ## ASCII text -/

/-- The characters below 128 as bytes. -/
def ascii (cs : List Char) : Bytes := cs.map fun c => UInt8.ofNat c.toNat

theorem ascii_lt {cs : List Char} (h : ∀ c ∈ cs, c.toNat < 0x80) :
    ∀ b ∈ ascii cs, b.toNat < 0x80 := by
  intro b hb
  rcases List.mem_map.mp hb with ⟨c, hc, rfl⟩
  have hlt := h c hc
  rw [UInt8.toNat_ofNat', Nat.mod_eq_of_lt (by omega)]
  exact hlt

theorem map_ascii : ∀ {cs : List Char}, (∀ c ∈ cs, c.toNat < 0x80) →
    (ascii cs).map (fun b => Char.ofNat b.toNat) = cs
  | [], _ => rfl
  | c :: cs, h => by
      have hlt := h c List.mem_cons_self
      have ih := map_ascii fun x hx => h x (List.mem_cons_of_mem _ hx)
      rw [ascii] at ih ⊢
      rw [List.map_cons, List.map_cons, ih, UInt8.toNat_ofNat', Nat.mod_eq_of_lt (by omega),
        Char.ofNat_toNat]

/-- ASCII text decodes to itself. -/
theorem lossy_ascii : ∀ {cs : List Char}, (∀ c ∈ cs, c.toNat < 0x80) → lossy (ascii cs) = cs
  | [], _ => rfl
  | c :: cs, h => by
      have hlt := ascii_lt h _ List.mem_cons_self
      have hm := map_ascii h
      rw [ascii, List.map_cons] at hm ⊢
      rw [lossy_cons_ascii hlt, List.map_cons, List.cons.injEq] at *
      exact ⟨hm.1, lossy_ascii fun x hx => h x (List.mem_cons_of_mem _ hx)⟩

theorem isPrefix_lossy_bytes : ∀ {p : Bytes}, (∀ b ∈ p, b.toNat < 0x80) → ∀ {bs : Bytes},
    p.map (fun b => Char.ofNat b.toNat) <+: lossy bs ↔ p <+: bs
  | [], _, _ => ⟨fun _ => List.nil_prefix, fun _ => List.nil_prefix⟩
  | a :: p, _, [] =>
      ⟨fun h => absurd (List.prefix_nil.mp h) (by simp), fun h => absurd (List.prefix_nil.mp h) nofun⟩
  | a :: p, h, b :: bs => by
      have ha := h a List.mem_cons_self
      have ih : p.map (fun b => Char.ofNat b.toNat) <+: lossy bs ↔ p <+: bs :=
        isPrefix_lossy_bytes fun x hx => h x (List.mem_cons_of_mem _ hx)
      rw [List.map_cons, List.cons_prefix_cons]
      by_cases hb : b.toNat < 0x80
      · rw [lossy_cons_ascii hb, List.cons_prefix_cons, ih]
        exact and_congr_left' ⟨ofNat_byte_inj, fun h => h ▸ rfl⟩
      · obtain ⟨c, cs, hl, hc⟩ := lossy_cons_large (Nat.le_of_not_lt hb) bs
        rw [hl, List.cons_prefix_cons]
        constructor
        · rintro ⟨rfl, -⟩
          rw [toNat_ofNat_byte] at hc
          omega
        · rintro ⟨rfl, -⟩
          exact absurd ha hb

/-- **Beginning with an ASCII text** is the same before and after decoding. -/
theorem isPrefix_lossy_iff {cs : List Char} (h : ∀ c ∈ cs, c.toNat < 0x80) {bs : Bytes} :
    cs <+: lossy bs ↔ ascii cs <+: bs := by
  have hp : (ascii cs).map (fun b => Char.ofNat b.toNat) <+: lossy bs ↔ ascii cs <+: bs :=
    isPrefix_lossy_bytes (ascii_lt h)
  rwa [map_ascii h] at hp

/-! ## Lines -/

/-- Without the carriage return at its end. -/
def stripCr (l : List Char) : List Char := if l.getLast? = some '\r' then l.dropLast else l

/-- The lines of a text after the characters `acc`, latest first, of the current
one; a carriage return goes with the line feed that follows it. -/
def linesFrom : List Char → List Char → List (List Char)
  | acc, [] => if acc = [] then [] else [acc.reverse]
  | acc, c :: cs =>
      if c = '\n' then stripCr acc.reverse :: linesFrom [] cs else linesFrom (c :: acc) cs

/-- `str::lines`. -/
def lines (cs : List Char) : List (List Char) := linesFrom [] cs

theorem linesFrom_append (cs : List Char) : ∀ (acc l : List Char), '\n' ∉ l →
    linesFrom acc (l ++ '\n' :: cs) = stripCr (acc.reverse ++ l) :: lines cs
  | acc, [], _ => by
      rw [List.nil_append, linesFrom, if_pos rfl, List.append_nil]
      rfl
  | acc, c :: l, h => by
      have hc : c ≠ '\n' := fun hc => h (hc ▸ List.mem_cons_self)
      rw [List.cons_append, linesFrom, if_neg hc,
        linesFrom_append cs (c :: acc) l fun hl => h (List.mem_cons_of_mem _ hl)]
      simp only [List.reverse_cons, List.append_assoc, List.singleton_append]

/-- The first line of a text. -/
theorem lines_append {l : List Char} (h : '\n' ∉ l) (cs : List Char) :
    lines (l ++ '\n' :: cs) = stripCr l :: lines cs := linesFrom_append cs [] l h

theorem stripCr_isPrefix_self (l : List Char) : stripCr l <+: l := by
  rw [stripCr]
  split
  · exact List.dropLast_prefix l
  · exact List.prefix_refl l

theorem stripCr_eq_self {l : List Char} (h : '\r' ∉ l) : stripCr l = l :=
  if_neg fun hl => h (List.mem_of_getLast? hl)

/-- **Lines that were written are read back**, if no line feed or carriage return is in them. -/
theorem lines_flatMap {ls : List (List Char)} (h : ∀ l ∈ ls, '\n' ∉ l ∧ '\r' ∉ l)
    (cs : List Char) : lines (ls.flatMap (· ++ ['\n']) ++ cs) = ls ++ lines cs := by
  induction ls with
  | nil => rfl
  | cons l ls ih =>
      obtain ⟨hlf, hcr⟩ := h l List.mem_cons_self
      rw [List.flatMap_cons, List.append_assoc, List.append_assoc, List.singleton_append,
        lines_append hlf, stripCr_eq_self hcr, ih fun l' hl' => h l' (List.mem_cons_of_mem _ hl')]
      rfl

/-- `read_line` until the input ends: the lines, each without its line feed, and what follows
the last line feed. -/
def readLines : List Char → List (List Char) × List Char
  | [] => ([], [])
  | c :: cs =>
      let (ls, last) := readLines cs
      if c = '\n' then ([] :: ls, last)
      else
        match ls with
        | [] => ([], c :: last)
        | l :: ls => ((c :: l) :: ls, last)

/-- A line with another character than a carriage return is not stripped away. -/
theorem mem_stripCr {c : Char} (hc : c ≠ '\r') {l : List Char} (h : c ∈ l) : c ∈ stripCr l := by
  rw [stripCr]
  split
  · next hl =>
      have hd := List.dropLast_append_getLast? '\r' hl
      rw [← hd] at h
      rcases List.mem_append.mp h with h | h
      · exact h
      · exact absurd (List.mem_singleton.mp h) hc
  · exact h

/-- The first line of a text that is given as bytes. -/
theorem lines_lossy {l : Bytes} (h : 10 ∉ l) (rest : Bytes) :
    lines (lossy (l ++ 10 :: rest)) = stripCr (lossy l) :: lines (lossy rest) := by
  rw [lossy_append_ascii (by decide)]
  refine lines_append (fun hn => ?_) _
  rcases mem_decodeFrom (by decide) _ _ hn with ⟨b, hb, hc⟩
  have hb10 : b = 10 := ofNat_byte_inj hc
  exact h (hb10 ▸ hb)

/-! ## Words -/

/-- The characters before the first space, and what follows it. -/
def word (l : List Char) : List Char := l.takeWhile (· ≠ ' ')

def afterWord (l : List Char) : List Char := (l.dropWhile (· ≠ ' ')).tail

theorem word_append {l rest : List Char} (h : ' ' ∉ l) : word (l ++ ' ' :: rest) = l := by
  have hl : ∀ c ∈ l, decide (c ≠ ' ') = true := fun c hc =>
    decide_eq_true fun he => h (he ▸ hc)
  rw [word, List.takeWhile_append_of_pos hl, List.takeWhile_cons_of_neg (by simp),
    List.append_nil]

theorem afterWord_append {l rest : List Char} (h : ' ' ∉ l) :
    afterWord (l ++ ' ' :: rest) = rest := by
  have hl : ∀ c ∈ l, decide (c ≠ ' ') = true := fun c hc =>
    decide_eq_true fun he => h (he ▸ hc)
  rw [afterWord, List.dropWhile_append_of_pos hl, List.dropWhile_cons_of_neg (by simp),
    List.tail_cons]

theorem word_eq_self {l : List Char} : word l = l ↔ ' ' ∉ l := by
  rw [word, List.takeWhile_eq_self_iff]
  simp only [decide_eq_true_eq]
  exact ⟨fun h hc => h _ hc rfl, fun h c hc he => h (he ▸ hc)⟩

/-- A text is cut at its first space. -/
theorem word_afterWord : ∀ {l : List Char}, ' ' ∈ l → l = word l ++ ' ' :: afterWord l
  | c :: l, h => by
      by_cases hc : c = ' '
      · subst hc
        simp [word, afterWord]
      · have hl : ' ' ∈ l := (List.mem_cons.mp h).resolve_left fun he => hc he.symm
        rw [word, afterWord, List.takeWhile_cons_of_pos (by simpa using hc),
          List.dropWhile_cons_of_pos (by simpa using hc)]
        exact congrArg (c :: ·) (word_afterWord hl)

theorem space_not_mem_word (l : List Char) : ' ' ∉ word l := by
  intro h
  rw [word] at h
  have hne := List.mem_takeWhile_imp h
  exact of_decide_eq_true hne rfl

/-- `str::split_once`: what is before the first `c`, and what follows it. -/
def splitOnce (c : Char) (l : List Char) : Option (List Char × List Char) :=
  if c ∈ l then some (l.takeWhile (· ≠ c), (l.dropWhile (· ≠ c)).tail) else none

theorem splitOnce_append {c : Char} {l : List Char} (h : c ∉ l) (rest : List Char) :
    splitOnce c (l ++ c :: rest) = some (l, rest) := by
  have hl : ∀ d ∈ l, decide (d ≠ c) = true := fun d hd => decide_eq_true fun he => h (he ▸ hd)
  rw [splitOnce, if_pos (by simp), List.takeWhile_append_of_pos hl,
    List.takeWhile_cons_of_neg (by simp), List.append_nil, List.dropWhile_append_of_pos hl,
    List.dropWhile_cons_of_neg (by simp), List.tail_cons]

theorem splitOnce_eq_none {c : Char} {l : List Char} : splitOnce c l = none ↔ c ∉ l := by
  rw [splitOnce]
  split
  · next h => exact iff_of_false (Option.some_ne_none _) (not_not_intro h)
  · next h => exact iff_of_true rfl h

theorem splitOnce_eq_some {c : Char} {l a b : List Char} :
    splitOnce c l = some (a, b) ↔ l = a ++ c :: b ∧ c ∉ a := by
  constructor
  · intro h
    have hc : c ∈ l := by
      by_contra hc
      rw [splitOnce_eq_none.mpr hc] at h
      cases h
    obtain ⟨x, y, rfl, hx⟩ := List.eq_append_cons_of_mem hc
    rw [splitOnce_append hx] at h
    cases h
    exact ⟨rfl, hx⟩
  · rintro ⟨rfl, ha⟩
    exact splitOnce_append ha b

/-- `str::strip_prefix`. -/
theorem dropPrefix?_eq {l pre rest : List Char} :
    l.dropPrefix? pre = some rest ↔ l = pre ++ rest := by
  rw [List.dropPrefix?_eq_some_iff]
  constructor
  · rintro ⟨pre', rfl, h⟩
    rw [eq_of_beq h]
  · rintro rfl
    exact ⟨pre, rfl, beq_self_eq_true pre⟩

theorem dropPrefix?_eq_none {l pre : List Char} (h : ¬ pre <+: l) : l.dropPrefix? pre = none := by
  cases hd : l.dropPrefix? pre with
  | none => rfl
  | some rest => exact absurd ⟨rest, (dropPrefix?_eq.mp hd).symm⟩ h

/-! ## Trimming -/

/-- `char::is_whitespace`: the property `White_Space`. -/
def isWhitespace (c : Char) : Bool :=
  let n := c.toNat
  decide (0x09 ≤ n ∧ n ≤ 0x0D) || n == 0x20 || n == 0x85 || n == 0xA0 || n == 0x1680 ||
    decide (0x2000 ≤ n ∧ n ≤ 0x200A) || n == 0x2028 || n == 0x2029 || n == 0x202F ||
    n == 0x205F || n == 0x3000

/-- `str::trim`. -/
def trim (l : List Char) : List Char :=
  ((l.dropWhile isWhitespace).reverse.dropWhile isWhitespace).reverse

theorem dropWhile_eq_self {l : List Char} (h : ∀ c ∈ l, isWhitespace c = false) :
    l.dropWhile isWhitespace = l := by
  cases l with
  | nil => rfl
  | cons c l => rw [List.dropWhile_cons_of_neg (by simp [h c List.mem_cons_self])]

/-- A text without white space is trimmed already. -/
theorem trim_eq_self {l : List Char} (h : ∀ c ∈ l, isWhitespace c = false) : trim l = l := by
  rw [trim, dropWhile_eq_self h,
    dropWhile_eq_self fun c hc => h c (List.mem_reverse.mp hc), List.reverse_reverse]

/-! ## Substrings -/

/-- No match starts at another character than the first of the pattern. -/
theorem isInfix_cons_of_ne {c d : Char} {pat l : List Char} (h : d ≠ c) :
    (c :: pat) <:+: d :: l ↔ (c :: pat) <:+: l := by
  rw [List.infix_cons_iff]
  exact or_iff_right fun hp => h (List.cons_prefix_cons.mp hp).1.symm

theorem isInfix_append_of_notMem {c : Char} {pat : List Char} :
    ∀ {pre l : List Char}, c ∉ pre → ((c :: pat) <:+: pre ++ l ↔ (c :: pat) <:+: l)
  | [], _, _ => Iff.rfl
  | d :: pre, l, h => by
      rw [List.cons_append, isInfix_cons_of_ne (List.ne_of_not_mem_cons h).symm,
        isInfix_append_of_notMem (List.not_mem_of_not_mem_cons h)]

/-- A match around a space is not at the end of a word. -/
theorem not_isInfix_word {c d e : Char} {rest : List Char} (hd : d ≠ e)
    (hrest : ¬ [c, ' ', d] <:+: ' ' :: e :: rest) :
    ∀ {w : List Char}, ' ' ∉ w → ¬ [c, ' ', d] <:+: w ++ ' ' :: e :: rest
  | [], _ => hrest
  | x :: w, hw => by
      have hw' : ' ' ∉ w := List.not_mem_of_not_mem_cons hw
      rw [List.cons_append, List.infix_cons_iff]
      rintro (hp | hi)
      · have hp := (List.cons_prefix_cons.mp hp).2
        cases w with
        | nil => exact hd (List.cons_prefix_cons.mp (List.cons_prefix_cons.mp hp).2).1
        | cons y w =>
            exact hw' ((List.cons_prefix_cons.mp hp).1 ▸ List.mem_cons_self)
      · exact not_isInfix_word hd hrest hw' hi

/-! ## Debug -/

/-- `char::escape_debug` between double quotes.  Beyond ASCII only the control characters are
escaped here, not all that is unprintable. -/
def escapeDebug (c : Char) : List Char :=
  if c = '\t' then "\\t".toList
  else if c = '\r' then "\\r".toList
  else if c = '\n' then "\\n".toList
  else if c = '"' ∨ c = '\\' then ['\\', c]
  else if c.toNat = 0 then "\\0".toList
  else if c.toNat < 0x20 ∨ 0x7F ≤ c.toNat ∧ c.toNat < 0xA0 then
    "\\u\x7b".toList ++ Nat.toDigits 16 c.toNat ++ "\x7d".toList
  else [c]

/-- `Debug` of `str`. -/
def debug (s : List Char) : String := "\"" ++ String.ofList (s.flatMap escapeDebug) ++ "\""

end Lib
