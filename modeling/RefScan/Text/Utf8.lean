import RefScan.Text

/-!
# Reading UTF-8

Reading never fails. Where no well-formed sequence continues, the part read so far counts as one
replacement character and the offending byte starts afresh, so each replacement stands for a
maximal part of some well-formed sequence. A byte order mark is text like any other.
-/

namespace RefScan.Text.Utf8

/-- A sequence that has begun: its bits so far, the range of the byte that must follow, and how
many continuation bytes come after that one. -/
structure Begun where
  bits : Nat
  low : UInt8
  high : UInt8
  more : Nat
deriving DecidableEq

/-- The sequences that a byte of `0x80` or more can begin. The narrowed ranges rule out overlong
forms, surrogates and values above `0x10FFFF`. -/
def begin? (b : UInt8) : Option Begun :=
  if 0xC2 ≤ b ∧ b ≤ 0xDF then some ⟨b.toNat - 0xC0, 0x80, 0xBF, 0⟩
  else if b = 0xE0 then some ⟨0, 0xA0, 0xBF, 1⟩
  else if b = 0xED then some ⟨0xD, 0x80, 0x9F, 1⟩
  else if 0xE1 ≤ b ∧ b ≤ 0xEF then some ⟨b.toNat - 0xE0, 0x80, 0xBF, 1⟩
  else if b = 0xF0 then some ⟨0, 0x90, 0xBF, 2⟩
  else if 0xF1 ≤ b ∧ b ≤ 0xF3 then some ⟨b.toNat - 0xF0, 0x80, 0xBF, 2⟩
  else if b = 0xF4 then some ⟨4, 0x80, 0x8F, 2⟩
  else none

def first (b : UInt8) : List Char × Option Begun :=
  if b < 0x80 then ([Char.ofNat b.toNat], none)
  else match begin? b with
    | some s => ([], some s)
    | none => ([replacement], none)

/-- Reads a byte in the given state: the characters it completes and the next state. -/
def feed : Option Begun → UInt8 → List Char × Option Begun
  | none, b => first b
  | some s, b =>
    if s.low ≤ b ∧ b ≤ s.high then
      let bits := s.bits * 64 + (b.toNat - 0x80)
      match s.more with
      | 0 => ([Char.ofNat bits], none)
      | more + 1 => ([], some ⟨bits, 0x80, 0xBF, more⟩)
    else (replacement :: (first b).1, (first b).2)

def finish : Option Begun → List Char
  | none => []
  | some _ => [replacement]

def decodeFrom (state : Option Begun) : Bytes → List Char
  | [] => finish state
  | b :: bs =>
    let (text, next) := feed state b
    text ++ decodeFrom next bs

def decode (bytes : Bytes) : List Char := decodeFrom none bytes

def wellFormedFrom (state : Option Begun) : Bytes → Bool
  | [] => state.isNone
  | b :: bs =>
    match state with
    | none => (b < 0x80 || (begin? b).isSome) && wellFormedFrom (first b).2 bs
    | some s => (s.low ≤ b && b ≤ s.high) && wellFormedFrom (feed (some s) b).2 bs

def decode? (bytes : Bytes) : Option (List Char) :=
  if wellFormedFrom none bytes then some (decode bytes) else none

end RefScan.Text.Utf8
