import RefScan.Encoding

/-!
# Options and counters of a scan
-/

namespace RefScan

structure ScanOptions where
  encoding : Encoding := .utf8
  /-- Scan the types that are found, too. -/
  recursive : Bool := false
  /-- How many references away from the root a type may be to get scanned itself. -/
  maxDepth : Option Nat := none
deriving DecidableEq, Repr

namespace ScanOptions

def expandsAt (o : ScanOptions) (depth : Nat) : Bool :=
  o.recursive && o.maxDepth.all (depth ≤ ·)

/-- A scan with a depth limit goes level by level, so that it meets every type at its shortest
distance from the root. -/
def byLevel (o : ScanOptions) : Bool := o.maxDepth.isSome

end ScanOptions

structure ScanStats where
  /-- Types whose bytes were loaded and searched. -/
  expanded : Nat := 0
  /-- Candidates met, counted for each type anew. -/
  candidates : Nat := 0
  /-- Different candidates that name no type. -/
  unresolved : Nat := 0
  /-- Different types left out by the exclusion. -/
  excluded : Nat := 0
  /-- Found types whose bytes could not be loaded. -/
  abandoned : Nat := 0
deriving DecidableEq, Repr

end RefScan
