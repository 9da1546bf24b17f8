import RefScan.Command
import RefScan.CommandLine.Reader

/-!
# The program

Reads the words of a call, copies the files that its command can look at into a `FileTree`, runs
the command on the copy and prints what it leaves behind. What cannot be read is left out of the
copy. Nothing is decided here: see `CommandLine.read` and `CommandLine.run`.
-/

namespace RefScan.Program

def place (l : Location) : String := "/" ++ "/".intercalate l

def entryAt? (l : Location) : IO (Option FileEntry) := do
  try
    let path ← IO.FS.realPath (place l)
    match (← path.metadata).type with
    | .dir => return some .directory
    | .file => return some (.file (← IO.FS.readBinFile path).toList)
    | _ => return none
  catch _ => return none

def copyEntry (tree : FileTree) (l : Location) : IO FileTree := do
  match ← entryAt? l with
  | some entry => return { tree with entries := tree.entries.insert l entry }
  | none => return tree

/-- Copies what a path leads through and to. Returns its end as well. -/
def copyWay (tree : FileTree) (p : Path) : IO (FileTree × Location) :=
  let start := if p.isAbsolute then [] else tree.workingDirectory
  p.pieces.foldlM (fun (tree, here) piece => do
    if Path.isIdle piece then return (tree, here)
    else if piece = ['.', '.'] then return (tree, here.dropLast)
    else
      let there := here ++ [String.ofList piece]
      return (← copyEntry tree there, there)) (tree, start)

/-- Copies the compiled units at most `depth` directories below a location. Links are not followed,
and names that start with a dot are of no package. -/
def copyUnits : (depth : Nat) → FileTree → Location → IO FileTree
  | 0, tree, _ => return tree
  | depth + 1, tree, here => do
    try
      let directory ← IO.FS.realPath (place here)
      (← directory.readDir).foldlM (fun tree entry => do
        let there := here ++ [entry.fileName]
        match (← entry.path.symlinkMetadata).type with
        | .dir =>
          if entry.fileName.startsWith "." then return tree
          else copyUnits depth (← copyEntry tree there) there
        | .file => if entry.fileName.endsWith ".class" then copyEntry tree there else return tree
        | _ => return tree) tree
    catch _ => return tree

def copyFiles (c : CommandLine) (tree : FileTree) : IO FileTree := do
  let (tree, _) ← copyWay tree ⟨c.config⟩
  match c.command with
  | .candidates file _ _ => return (← copyWay tree ⟨file⟩).1
  | .scan _ a | .graph _ a | .all a =>
    match Settings.resolve (Config.load tree ⟨c.config⟩) ⟨c.config⟩ a with
    | .error _ => return tree
    | .ok settings =>
      settings.classPath.roots.foldlM (fun tree root => do
        let (tree, here) ← copyWay tree root
        copyUnits FileTree.pathLimit tree here) tree

def finish (o : Outcome) : IO UInt32 := do
  IO.print o.output
  IO.eprint o.errors
  return o.exitCode.toUInt32

end RefScan.Program

open RefScan in
def main (args : List String) : IO UInt32 := do
  match CommandLine.read args with
  | .error e => Program.finish e.outcome
  | .ok c =>
    let names := (← IO.currentDir).components.filter (· ≠ "")
    Program.finish (c.run (← Program.copyFiles c (.rootedAt names)))
