import RefScan.Scan.Walk

/-!
# Scans and their results

The public face of the walk. A scan of no type at all asks nothing and finds nothing. Results
come with the questions that were asked for them, in order.
-/

namespace RefScan

structure Trace where
  loads : List TypeName := []
  resolutions : List String := []
  questions : List TypeName := []
deriving DecidableEq, Repr

def Trace.append (a b : Trace) : Trace :=
  ⟨a.loads ++ b.loads, a.resolutions ++ b.resolutions, a.questions ++ b.questions⟩

instance : Append Trace := ⟨Trace.append⟩

structure Traced (α : Type) where
  result : α
  trace : Trace := {}

def Traced.map (f : α → β) (x : Traced α) : Traced β := ⟨f x.result, x.trace⟩

structure ScanReport where
  found : Std.ExtTreeSet TypeName := ∅
  stats : ScanStats := {}

def Walk.trace (w : Walk) : Trace :=
  ⟨w.loads.reverse, w.resolutions.reverse, w.questions.reverse⟩

def Walk.outcome (view : Walk → α) (w : Walk) : Traced (Except ScanError α) :=
  ⟨match w.failure with
    | some e => .error e
    | none => .ok (view w), w.trace⟩

namespace Source

/-- Scans from a root, if there is one, and takes `view` of the walk. -/
def scanWith (s : Source) (root : Option TypeName) (options : ScanOptions)
    (exclusion : Option Exclusion) (recorded : Bool) (nothing : α) (view : Walk → α) :
    Traced (Except ScanError α) :=
  match root with
  | none => ⟨.ok nothing, {}⟩
  | some root => (Walk.finished ⟨s, root, options, exclusion, recorded⟩).outcome view

def report (s : Source) (root : Option TypeName) (options : ScanOptions := {})
    (exclusion : Option Exclusion := none) : Traced (Except ScanError ScanReport) :=
  s.scanWith root options exclusion false {} fun w => ⟨w.found, w.stats⟩

/-- The references that a scan accepts, those back to the root included. -/
def graph (s : Source) (root : Option TypeName) (options : ScanOptions := {})
    (exclusion : Option Exclusion := none) : Traced (Except ScanError Graph) :=
  s.scanWith root options exclusion true .empty fun w => w.graph.getD .empty

def scan (s : Source) (root : Option TypeName) (options : ScanOptions := {})
    (exclusion : Option Exclusion := none) :
    Traced (Except ScanError (Std.ExtTreeSet TypeName)) :=
  s.scanWith root options exclusion false ∅ Walk.found

/-- A scan without depth limit in an encoding given by its label. The label counts only if there
is a root, and then before anything is loaded. -/
def scanLabelled (s : Source) (root : Option TypeName) (label : String) (recursive : Bool)
    (exclusion : Option Exclusion) : Traced (Except ScanError (Std.ExtTreeSet TypeName)) :=
  match root with
  | none => ⟨.ok ∅, {}⟩
  | some root =>
    match Encoding.ofLabel label with
    | .error cause => ⟨.error (.decode root.name cause), {}⟩
    | .ok encoding => s.scan (some root) { encoding, recursive } exclusion

def candidates (s : Source) (unit : TypeName) (encoding : Encoding) :
    Traced (Except ScanError Candidates) :=
  ⟨match s.load unit with
    | .ok bytes => .ok (.ofBytes encoding bytes)
    | .error cause => .error (.load unit.name cause), { loads := [unit] }⟩

/-- One scan for each different root, in name order. No scan knows of another. -/
def scanMany (s : Source) (roots : List TypeName) (options : ScanOptions := {})
    (exclusion : Option Exclusion := none) :
    List (TypeName × Traced (Except ScanError (Std.ExtTreeSet TypeName))) :=
  (Std.ExtTreeSet.ofList roots).toList.map fun root =>
    (root, s.scan (some root) options exclusion)

end Source

end RefScan
