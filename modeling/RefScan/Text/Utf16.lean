import RefScan.Text

/-!
# Reading UTF-16

Reading never fails: every surrogate without its partner reads as one replacement character, and
so does an odd last byte. The unit after a lone high surrogate is read on its own.
-/

namespace RefScan.Text.Utf16

inductive ByteOrder where
  | big
  | little
deriving DecidableEq

def ByteOrder.unit : ByteOrder → UInt8 → UInt8 → Nat
  | .big, a, b => a.toNat * 256 + b.toNat
  | .little, a, b => b.toNat * 256 + a.toNat

def units (order : ByteOrder) : Bytes → List Nat
  | a :: b :: rest => order.unit a b :: units order rest
  | _ => []

def isHigh (u : Nat) : Bool := 0xD800 ≤ u && u < 0xDC00
def isLow (u : Nat) : Bool := 0xDC00 ≤ u && u < 0xE000

def pair (high low : Nat) : Char :=
  Char.ofNat (0x10000 + (high - 0xD800) * 0x400 + (low - 0xDC00))

/-- Reads a unit with no high surrogate waiting: the text and the surrogate that now waits. -/
def first (u : Nat) : List Char × Option Nat :=
  if isHigh u then ([], some u)
  else if isLow u then ([replacement], none)
  else ([Char.ofNat u], none)

def feed : Option Nat → Nat → List Char × Option Nat
  | none, u => first u
  | some high, u =>
    if isLow u then ([pair high u], none)
    else (replacement :: (first u).1, (first u).2)

def finish : Option Nat → List Char
  | none => []
  | some _ => [replacement]

def decodeUnits (waiting : Option Nat) : List Nat → List Char
  | [] => finish waiting
  | u :: us =>
    let (text, next) := feed waiting u
    text ++ decodeUnits next us

def oddTail (bytes : Bytes) : List Char :=
  if bytes.length % 2 = 1 then [replacement] else []

def decode (order : ByteOrder) (bytes : Bytes) : List Char :=
  decodeUnits none (units order bytes) ++ oddTail bytes

/-- A leading byte order mark picks the order and is dropped; without one the order is big. -/
def decodeMarked : Bytes → List Char
  | 0xFE :: 0xFF :: rest => decode .big rest
  | 0xFF :: 0xFE :: rest => decode .little rest
  | bytes => decode .big bytes

end RefScan.Text.Utf16
