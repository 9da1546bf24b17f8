import RefScan.Failure
import RefScan.TypeName

/-!
# Where a scan gets its types from

A source loads bytes and resolves names, and answers the same question always in the same way.
-/

namespace RefScan

structure Source where
  load : TypeName → Except LoadError Bytes
  resolve : String → Except ResolveError TypeName

namespace Source

def renamed (s : Source) (rename : String → String) : Source :=
  { s with resolve name := s.resolve (rename name) }

def loadedBy (s : Source) (load : TypeName → Except LoadError Bytes) : Source :=
  { s with load := load }

end Source

end RefScan
