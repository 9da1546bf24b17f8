import RefScan.CompiledUnit
import RefScan.Scan.Report
import RefScan.Source
import Std.Data.ExtTreeMap
import Std.Data.ExtTreeSet

/-!
# Universes of types in memory

A universe holds units with their bytes, stubs that resolve but have no bytes, and marks on types
that are broken. A mark outlives everything but new bytes. The universe counts the questions it
gets, failed ones included.
-/

namespace RefScan

structure Universe where
  units : Std.ExtTreeMap String Bytes := ∅
  stubs : Std.ExtTreeSet String := ∅
  /-- Broken types with the reason. -/
  broken : Std.ExtTreeMap String String := ∅
  loads : Nat := 0
  resolutions : Nat := 0

namespace Universe

def insertBytes (u : Universe) (name : String) (bytes : Bytes) : Universe :=
  { u with
    units := u.units.insert name bytes
    stubs := u.stubs.erase name
    broken := u.broken.erase name }

def insertUnit (u : Universe) (unit : CompiledUnit) : Universe :=
  u.insertBytes unit.type.name unit.bytes

def insertStub (u : Universe) (name : String) : Universe :=
  { u with units := u.units.erase name, stubs := u.stubs.insert name }

def markBroken (u : Universe) (name reason : String) : Universe :=
  { u with broken := u.broken.insert name reason }

def contains (u : Universe) (name : String) : Bool := name ∈ u.units || name ∈ u.stubs

def size (u : Universe) : Nat := u.units.size + u.stubs.size

def names (u : Universe) : List String :=
  (Std.ExtTreeSet.ofList (u.units.keys ++ u.stubs.toList)).toList

/-- The answer to a load, whose asking `load` counts. -/
def bytesOf (u : Universe) (t : TypeName) : Except LoadError Bytes :=
  match u.units[t.name]? with
  | some bytes => .ok bytes
  | none => .error (.notFound t.name)

def handleOf (u : Universe) (name : String) : Except ResolveError TypeName :=
  match u.broken[name]? with
  | some reason => .error (.broken name reason)
  | none => if u.contains name then .ok ⟨name⟩ else .error (.notFound name)

def load (u : Universe) (t : TypeName) : Except LoadError Bytes × Universe :=
  (u.bytesOf t, { u with loads := u.loads + 1 })

def resolve (u : Universe) (name : String) : Except ResolveError TypeName × Universe :=
  (u.handleOf name, { u with resolutions := u.resolutions + 1 })

def source (u : Universe) : Source := ⟨u.bytesOf, u.handleOf⟩

def asked (u : Universe) (t : Trace) : Universe :=
  { u with
    loads := u.loads + t.loads.length
    resolutions := u.resolutions + t.resolutions.length }

end Universe

end RefScan
