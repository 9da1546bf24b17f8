import RefScan.Text

/-!
# Type names

A type is known by its fully qualified dotted name. Names are ordered by code point.
-/

namespace RefScan

structure TypeName where
  name : String
deriving DecidableEq, Repr

namespace TypeName

instance : Ord TypeName := ⟨compareOn TypeName.name⟩

instance : Std.TransOrd TypeName := inferInstanceAs (Std.TransCmp (compareOn TypeName.name))

instance : Std.LawfulEqOrd TypeName where
  eq_of_compare {a b} h := by
    obtain ⟨a⟩ := a
    obtain ⟨b⟩ := b
    exact congrArg TypeName.mk (Std.LawfulEqOrd.eq_of_compare (a := a) (b := b) h)

instance : ToString TypeName := ⟨TypeName.name⟩

def simple (t : TypeName) : String :=
  String.ofList ((Text.fields '.' t.name.toList).getLast?.getD [])

def package (t : TypeName) : String :=
  String.ofList (Text.joined '.' (Text.fields '.' t.name.toList).dropLast)

/-- The name as it stands in compiled code, with slashes for dots. -/
def internal (t : TypeName) : String :=
  String.ofList (Text.replace '.' '/' t.name.toList)

def unitPath (t : TypeName) : String := t.internal ++ ".class"

end TypeName

end RefScan
