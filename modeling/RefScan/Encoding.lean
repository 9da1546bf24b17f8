import RefScan.Failure
import RefScan.Text.Blank
import RefScan.Text.Utf8
import RefScan.Text.Utf16

/-!
# Text encodings

The six encodings that a compiled unit can be read in. Labels are compared without case, hyphens
and underscores, after blanks at their ends are dropped. Reading itself never fails.
-/

namespace RefScan

inductive Encoding where
  | utf8
  | latin1
  | ascii
  | utf16
  | utf16be
  | utf16le
deriving DecidableEq, Repr

namespace Encoding

def label : Encoding → String
  | .utf8 => "UTF-8"
  | .latin1 => "ISO-8859-1"
  | .ascii => "US-ASCII"
  | .utf16 => "UTF-16"
  | .utf16be => "UTF-16BE"
  | .utf16le => "UTF-16LE"

/-- What is left of a label for comparison. The blanks go first: one inside hyphens stays. -/
def normalForm (label : String) : String :=
  String.ofList (((Text.trim Text.isBlank label.toList).filter
    fun c => !(c == '-' || c == '_')).map Char.toUpper)

def ofNormalForm? : String → Option Encoding
  | "UTF8" => some .utf8
  | "ISO88591" | "LATIN1" | "L1" => some .latin1
  | "USASCII" | "ASCII" => some .ascii
  | "UTF16" => some .utf16
  | "UTF16BE" => some .utf16be
  | "UTF16LE" => some .utf16le
  | _ => none

def ofLabel (label : String) : Except DecodeError Encoding :=
  match ofNormalForm? (normalForm label) with
  | some encoding => .ok encoding
  | none => .error (.unsupportedEncoding label)

def decodeLatin1 (bytes : Bytes) : List Char := bytes.map fun b => Char.ofNat b.toNat

def decodeAscii (bytes : Bytes) : List Char :=
  bytes.map fun b => if b < 0x80 then Char.ofNat b.toNat else Text.replacement

def decode : Encoding → Bytes → List Char
  | .utf8 => Text.Utf8.decode
  | .latin1 => decodeLatin1
  | .ascii => decodeAscii
  | .utf16 => Text.Utf16.decodeMarked
  | .utf16be => Text.Utf16.decode .big
  | .utf16le => Text.Utf16.decode .little

end Encoding

end RefScan
