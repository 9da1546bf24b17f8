import RefScan.FileTree
import RefScan.Scan.Options
import RefScan.Text.Utf8
import RefScan.Toml.Reader
import RefScan.Toml.Table

/-!
# Configuration files

A configuration is a TOML document with three sections: `scan` for options, `classpath` for
directories and `exclude` for name beginnings. A section can be written as a table or as an array
of its values in order; what is not given has its default. Keys that are not known are ignored,
a known key that is repeated is a mistake.
-/

namespace RefScan

structure Config where
  scan : ScanOptions := {}
  /-- Class-path directories, relative to the configuration file. -/
  roots : List String := ["."]
  /-- Beginnings of the names of types to leave out. -/
  prefixes : List String := []
deriving DecidableEq, Repr

namespace Config

open Toml (Item Value)

def text? : Item → Option String
  | .value (.string s) => some s
  | _ => none

def flag? : Item → Option Bool
  | .value (.boolean b) => some b
  | _ => none

def count? : Item → Option Nat
  | .value (.integer n) => if 0 ≤ n then some n.toNat else none
  | _ => none

def texts? : Item → Option (List String)
  | .value (.array items) => items.mapM fun v => text? (.value v)
  | _ => none

def encoding? (item : Item) : Option Encoding := do
  (Encoding.ofLabel (← text? item)).toOption

inductive Section where
  | named (entries : List (String × Item))
  | positional (items : List Item)

/-- A date has no entry that a section knows, so it counts as an empty one. -/
def section? : Item → Option Section
  | .table entries => some (.named entries)
  | .tables _ => none
  | .value (.inline entries) | .value (.dotted entries) =>
    some (.named (entries.map fun (k, v) => (k, .value v)))
  | .value (.array items) => some (.positional (items.map .value))
  | .value (.date _) => some (.named [])
  | .value _ => none

def unique? (key : String) (entries : List (String × Item)) : Option (Option Item) :=
  match entries.filter (·.1 = key) with
  | [] => some none
  | [(_, item)] => some (some item)
  | _ => none

def Section.fields? (names : List String) : Section → Option (List (Option Item))
  | .named entries => names.mapM (unique? · entries)
  | .positional items =>
    if items.length ≤ names.length then
      some (items.map some ++ List.replicate (names.length - items.length) none)
    else none

def field? (read : Item → Option α) (default : α) : Option Item → Option α
  | none => some default
  | some item => read item

def sectionFields? (key : String) (names : List String) (entries : List (String × Item)) :
    Option (List (Option Item)) := do
  match ← unique? key entries with
  | none => some (names.map fun _ => none)
  | some item => (← section? item).fields? names

def scan? (entries : List (String × Item)) : Option ScanOptions := do
  match ← sectionFields? "scan" ["encoding", "recursive", "max_depth"] entries with
  | [encoding, recursive, maxDepth] =>
    pure {
      encoding := ← field? encoding? .utf8 encoding
      recursive := ← field? flag? false recursive
      maxDepth := ← field? (fun item => (count? item).map some) none maxDepth }
  | _ => none

def listSection? (key name : String) (default : List String) (entries : List (String × Item)) :
    Option (List String) := do
  match ← sectionFields? key [name] entries with
  | [item] => field? texts? default item
  | _ => none

def ofToml? (text : String) : Option Config := do
  let entries ← Toml.table? (← Toml.read? text)
  pure {
    scan := ← scan? entries
    roots := ← listSection? "classpath" "roots" ["."] entries
    prefixes := ← listSection? "exclude" "prefixes" [] entries }

/-- The configuration in a file. Without a readable file, or with one that makes no sense, all is
default. -/
def load (tree : FileTree) (path : Path) : Config :=
  match tree.read path with
  | .error _ => {}
  | .ok bytes => ((Text.Utf8.decode? bytes).bind fun cs => ofToml? (String.ofList cs)).getD {}

def resolvedRoots (c : Config) (configPath : Path) : List Path :=
  let base := configPath.parent?.getD ⟨""⟩
  c.roots.map fun root => base.join ⟨root⟩

end Config

end RefScan
