import RefScan.Encoding
import RefScan.TypeName
import Std.Data.ExtTreeSet

/-!
# Candidate type names in a text

A path is one or more package segments, each of a lower-case letter and then letters and digits,
every one followed by a slash, and a last segment of letters and digits. Only ASCII counts here.
A text is searched from the left for the longest paths that do not overlap. A path that ends in a
capitalised segment is a candidate; a path whose second character is `L` is a byte that happens to
stand before a descriptor, and the search goes on right behind its first character.
-/

namespace RefScan

namespace Candidate

def isSegmentChar (c : Char) : Bool := c.isAlphanum

/-- The longest stretch that can follow inside a path. In an `inPackage` segment a slash with a
segment behind it belongs to the path; a segment that starts otherwise is the last one. -/
def tail (inPackage : Bool) : List Char → List Char
  | [] => []
  | '/' :: c :: cs =>
    if inPackage && isSegmentChar c then '/' :: c :: tail c.isLower cs else []
  | c :: cs => if isSegmentChar c then c :: tail inPackage cs else []

/-- What a path that starts at the head of the text would consist of. It is a path if it has a
slash, and the longest one there. -/
def pathAt : List Char → List Char
  | [] => []
  | c :: cs => if c.isLower then c :: tail true cs else []

def isPath (cs : List Char) : Bool := cs.contains '/'

/-- A path in a text, with the offset of its first byte in UTF-8. -/
structure Occurrence where
  start : Nat
  path : List Char
deriving DecidableEq, Repr

namespace Occurrence

/-- Paths are ASCII, so each character is one byte. -/
def stop (o : Occurrence) : Nat := o.start + o.path.length

/-- The first character belongs to what precedes a descriptor. -/
def isGlued (o : Occurrence) : Bool :=
  match o.path with
  | _ :: c :: _ => c == 'L'
  | _ => false

def lastSegment (o : Occurrence) : List Char := (Text.fields '/' o.path).getLast?.getD []

def isType (o : Occurrence) : Bool :=
  match o.lastSegment with
  | c :: _ => c.isUpper
  | [] => false

def resume (o : Occurrence) : Nat := if o.isGlued then o.start + 1 else o.stop

def typeName? (o : Occurrence) : Option String :=
  if !o.isGlued && o.isType then some (String.ofList (Text.replace '/' '.' o.path)) else none

end Occurrence

/-- The paths of a text in order. `skip` characters are passed over first; `offset` is the byte
offset of the head. Where no path starts, none starts further on in the same run of segment
characters either. -/
def occurrencesFrom (offset skip : Nat) : List Char → List Occurrence
  | [] => []
  | c :: cs =>
    match skip with
    | skip + 1 => occurrencesFrom (offset + c.utf8Size) skip cs
    | 0 =>
      let path := pathAt (c :: cs)
      if isPath path then
        let o : Occurrence := ⟨offset, path⟩
        o :: occurrencesFrom (offset + c.utf8Size) (if o.isGlued then 0 else path.length - 1) cs
      else occurrencesFrom (offset + c.utf8Size) (path.length - 1) cs

def occurrences (text : List Char) : List Occurrence := occurrencesFrom 0 0 text

end Candidate

abbrev Candidates := Std.ExtTreeSet String

namespace Candidates

def ofText (text : List Char) : Candidates :=
  .ofList ((Candidate.occurrences text).filterMap (·.typeName?)) compare

def ofBytes (encoding : Encoding) (bytes : Bytes) : Candidates :=
  ofText (encoding.decode bytes)

end Candidates

end RefScan
