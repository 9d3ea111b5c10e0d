/-
# `FreenetGit.Encoding.Signed` — the builder of signed payloads

    payload = field(domain) || field(repo_key) || field(…) || …

The builder appends to a buffer and panics at a field of 4 GiB or more; a
buffer that is `none` stands for the panic.  `Builder.IsFrame` says which list
of fields a builder has written, and each operation adds its own.
-/
import FreenetGit.Lib.Framing

namespace FreenetGit

open Lib

/-- `WIRE_VERSION`. -/
def wireVersion : String := "v1"

namespace signed

/-- The buffer of a payload under construction. -/
structure Builder where
  buf : Option Bytes

namespace Builder

/-- Append a field of raw bytes; a length that does not fit `u32` panics. -/
def fieldBytes (b : Builder) (bytes : Bytes) : Builder :=
  ⟨b.buf.bind fun p => if Fits32 bytes then some (p ++ frameField bytes) else none⟩

/-- The domain string of a payload kind. -/
def domain (domainSuffix : String) : String :=
  "freenet-git/" ++ wireVersion ++ "/" ++ domainSuffix

def new (domainSuffix : String) : Builder :=
  fieldBytes ⟨some []⟩ (utf8 (domain domainSuffix))

def fieldStr (b : Builder) (s : String) : Builder := b.fieldBytes (utf8 s)

def fieldU32 (b : Builder) (x : UInt32) : Builder := b.fieldBytes (u32le x)

def fieldU64 (b : Builder) (x : UInt64) : Builder := b.fieldBytes (u64le x)

/-- The bytes of an optional field: a tag, then the value. -/
def optionBytes : Option Bytes → Bytes
  | none => [0x00]
  | some b => 0x01 :: b

def fieldOptionBytes (b : Builder) (value : Option Bytes) : Builder :=
  b.fieldBytes (optionBytes value)

def finish (b : Builder) : Option Bytes := b.buf

end Builder

/-- `build`: a payload from the mutations of a builder. -/
def build (domainSuffix : String) (f : Builder → Builder) : Option Bytes :=
  (f (Builder.new domainSuffix)).finish

/-! ## What a builder has written -/

theorem Builder.optionBytes_inj {x y : Option Bytes} (h : optionBytes x = optionBytes y) :
    x = y := by
  cases x <;> cases y <;> simp_all [optionBytes]

/-- The builder has written the fields `xs`. -/
def Builder.IsFrame (b : Builder) (xs : List Bytes) : Prop := b.buf = frame xs

namespace Builder.IsFrame

variable {b : Builder} {xs : List Bytes}

theorem fieldBytes (h : b.IsFrame xs) (x : Bytes) : (b.fieldBytes x).IsFrame (xs ++ [x]) := by
  unfold Builder.IsFrame at h
  unfold Builder.IsFrame Builder.fieldBytes
  rw [h, frame_append]
  refine Option.bind_congr fun p _ => ?_
  by_cases hx : Fits32 x <;> simp [frame, hx]

theorem fieldStr (h : b.IsFrame xs) (s : String) : (b.fieldStr s).IsFrame (xs ++ [utf8 s]) :=
  h.fieldBytes _

theorem fieldU32 (h : b.IsFrame xs) (x : UInt32) : (b.fieldU32 x).IsFrame (xs ++ [u32le x]) :=
  h.fieldBytes _

theorem fieldU64 (h : b.IsFrame xs) (x : UInt64) : (b.fieldU64 x).IsFrame (xs ++ [u64le x]) :=
  h.fieldBytes _

theorem fieldOptionBytes (h : b.IsFrame xs) (x : Option Bytes) :
    (b.fieldOptionBytes x).IsFrame (xs ++ [optionBytes x]) :=
  h.fieldBytes _

/-- A loop that writes the fields `f x` for each `x`. -/
theorem foldl {α : Type} (step : Builder → α → Builder) (f : α → List Bytes)
    (hs : ∀ {b xs} (x : α), Builder.IsFrame b xs → (step b x).IsFrame (xs ++ f x)) :
    ∀ (l : List α) {b xs}, Builder.IsFrame b xs → (l.foldl step b).IsFrame (xs ++ l.flatMap f)
  | [], b, xs, h => by simpa using h
  | x :: l, b, xs, h => by
      rw [List.foldl_cons, List.flatMap_cons, ← List.append_assoc]
      exact foldl step f hs l (hs x h)

theorem new (suffix : String) : (Builder.new suffix).IsFrame [utf8 (Builder.domain suffix)] :=
  have start : Builder.IsFrame ⟨some []⟩ [] := rfl
  start.fieldBytes _

end Builder.IsFrame

end signed

end FreenetGit
