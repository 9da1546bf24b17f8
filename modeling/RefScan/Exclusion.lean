import RefScan.TypeName

/-!
# Exclusions

An exclusion decides which types a scan leaves out. It may take into account which types it was
asked about before; a plain predicate does not.
-/

namespace RefScan

/-- The verdict on a type, given the types of earlier questions, latest first. -/
abbrev Exclusion := (earlier : List TypeName) → TypeName → Bool

namespace Exclusion

def ofPredicate (p : TypeName → Bool) : Exclusion := fun _ t => p t

/-- Excludes the type of every `n`-th question; none for `0`. -/
def everyNth (n : Nat) : Exclusion := fun earlier _ => n != 0 && (earlier.length + 1) % n == 0

end Exclusion

structure PrefixList where
  prefixes : List String
deriving DecidableEq, Repr

namespace PrefixList

def isEmpty (l : PrefixList) : Bool := l.prefixes.isEmpty

def add (l : PrefixList) (p : String) : PrefixList :=
  if p ∈ l.prefixes then l else ⟨l.prefixes ++ [p]⟩

def extend (l : PrefixList) (more : List String) : PrefixList := more.foldl add l

def excludes (l : PrefixList) (t : TypeName) : Bool :=
  l.prefixes.any fun p => p.toList.isPrefixOf t.name.toList

/-- A scan with no beginnings to exclude asks nothing. -/
def exclusion? (l : PrefixList) : Option Exclusion :=
  if l.isEmpty then none else some (.ofPredicate l.excludes)

end PrefixList

end RefScan
