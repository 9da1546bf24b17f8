import RefScan.FileTree
import RefScan.Source
import RefScan.Text.Alnum
import Std.Data.ExtTreeSet

/-!
# Class paths

A class path is a list of directories with compiled units in them, laid out by package: the unit
of `a.b.C` is the file `a/b/C.class` in the first directory that has it. Only dotted identifiers
are looked up, so a look-up never leaves its directory. `listTypes` goes the other way, from files
to names; it also lists files that no look-up reaches, those with dots in the wrong places.
-/

namespace RefScan

def isIdentifierChar (c : Char) : Bool := Text.isAlnum c || c == '_' || c == '$'

/-- Identifiers with dots between them. -/
def isQualifiedName (name : String) : Bool :=
  (Text.fields '.' name.toList).all fun s => !s.isEmpty && s.all isIdentifierChar

structure ClassPath where
  roots : List Path
deriving DecidableEq, Repr

namespace ClassPath

def unitExtension : List Char := "class".toList

def locate (cp : ClassPath) (tree : FileTree) (name : String) : Option Path :=
  if isQualifiedName name then
    (cp.roots.map fun root => root.join ⟨TypeName.unitPath ⟨name⟩⟩).find? tree.isFile
  else none

def segment? : Path.Component → Option (List Char)
  | .named name => some name
  | _ => none

/-- The type that a file below `root` is the unit of, by its place. -/
def typeNameFor? (root path : Path) : Option String := do
  let relative ← path.relativeTo? root
  let names ← relative.mapM segment?
  let file ← names.getLast?
  let (stem, extension) := Path.splitExtension file
  guard (extension = some unitExtension)
  let name := String.ofList (Text.joined '.' (names.dropLast ++ [stem]))
  guard (isQualifiedName name)
  pure name

/-- A root that stands for no directory when types are listed. -/
def isUnlisted (root : Path) : Bool :=
  root.chars.isEmpty || root.components = [.named ['-']]

def below (root : Path) (names : List String) : Path :=
  if names.isEmpty then root
  else root.join ⟨String.ofList (Text.joined '/' (names.map String.toList))⟩

/-- Whether a listing comes to a file, given its names from the root. Names that start with a dot
are left out with all that is below them, and a directory is opened by its path, so that path must
not be too long. -/
def isVisited (root : Path) (names : List String) : Bool :=
  names.all (fun n => n.toList.head? != some '.') &&
    !FileTree.isTooLong (below root names.dropLast)

def visited (tree : FileTree) (root : Path) : List Path :=
  if isUnlisted root then []
  else match tree.follow root with
    | .error _ => []
    | .ok l => ((tree.filesBelow l).filter (isVisited root)).map (below root)

def listTypes (cp : ClassPath) (tree : FileTree) : Std.ExtTreeSet String :=
  .ofList (cp.roots.flatMap fun root => (visited tree root).filterMap (typeNameFor? root)) compare

def load (cp : ClassPath) (tree : FileTree) (t : TypeName) : Except LoadError Bytes :=
  match cp.locate tree t.name with
  | none => .error (.notFound t.name)
  | some path =>
    match tree.read path with
    | .ok bytes => .ok bytes
    | .error .notFound => .error (.notFound t.name)
    | .error e => .error (.unreadable t.name e.message)

def resolve (cp : ClassPath) (tree : FileTree) (name : String) : Except ResolveError TypeName :=
  match cp.locate tree name with
  | some _ => .ok ⟨name⟩
  | none => .error (.notFound name)

end ClassPath

end RefScan
