import RefScan.TypeName

/-!
# Made-up compiled units

Bytes in the shape of a compiled class: a header, a table of texts that name the class and its
references, and a trailer. Only the shape matters; no tool would load them. Table size and text
lengths are written in sixteen bits and wrap beyond that.
-/

namespace RefScan

structure CompiledUnit where
  type : TypeName
  references : List TypeName
deriving DecidableEq, Repr

namespace CompiledUnit

/-- The lowest sixteen bits, high byte first. -/
def word (n : Nat) : Bytes := [UInt8.ofNat (n / 256), UInt8.ofNat n]

def header : Bytes := [0xCA, 0xFE, 0xBA, 0xBE, 0x00, 0x00, 0x00, 0x34]

def trailer : Bytes := [0x00, 0x21, 0x00, 0x01, 0x00, 0x00, 0x00, 0x00]

def referenceTexts (t : TypeName) : List String := [t.internal, "L" ++ t.internal ++ ";"]

def texts (u : CompiledUnit) : List String :=
  u.type.internal :: u.references.flatMap referenceTexts ++
    ["<init>", "()V", "Code", "LineNumberTable", "SourceFile", u.type.simple ++ ".java"]

def entry (text : String) : Bytes :=
  0x01 :: word (utf8Bytes text).length ++ utf8Bytes text

def bytes (u : CompiledUnit) : Bytes :=
  header ++ word (u.texts.length + 1) ++ u.texts.flatMap entry ++ trailer

end CompiledUnit

end RefScan
