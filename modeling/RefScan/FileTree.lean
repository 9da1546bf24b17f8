import RefScan.Path
import Std.Data.ExtTreeMap

/-!
# File trees

A tree of directories and files without links or permissions, seen from a working directory. A
location is the list of names on the way from the top. Following a path can fail in the ways the
operating system reports; `FileError.message` gives its texts.
-/

namespace RefScan

inductive FileError where
  | notFound
  | notDirectory
  | isDirectory
  | nameTooLong
  | containsNul
deriving DecidableEq, Repr

def FileError.message : FileError → String
  | .notFound => "No such file or directory (os error 2)"
  | .notDirectory => "Not a directory (os error 20)"
  | .isDirectory => "Is a directory (os error 21)"
  | .nameTooLong => "File name too long (os error 36)"
  | .containsNul => "file name contained an unexpected NUL byte"

abbrev Location := List String

inductive FileEntry where
  | file (bytes : Bytes)
  | directory
deriving DecidableEq, Repr

structure FileTree where
  entries : Std.ExtTreeMap Location FileEntry := ∅
  workingDirectory : Location := []

namespace FileTree

def nameLimit : Nat := 255

/-- Paths of this many bytes or more are refused. -/
def pathLimit : Nat := 4096

def isTooLong (p : Path) : Bool := pathLimit ≤ (Text.utf8 p.chars).length

def rootedAt (location : Location) : FileTree where
  entries := .ofList ((List.range location.length).map fun n =>
    (location.take (n + 1), FileEntry.directory))
  workingDirectory := location

def lookup (t : FileTree) (l : Location) : Option FileEntry :=
  if l = [] then some .directory else t.entries[l]?

/-- Follows the pieces of a path from a location. Whatever stands before a further piece must be a
directory. -/
def descend (t : FileTree) : Location → List (List Char) → Except FileError Location
  | here, [] => .ok here
  | here, piece :: pieces =>
    match t.lookup here with
    | none => .error .notFound
    | some (.file _) => .error .notDirectory
    | some .directory =>
      if Path.isIdle piece then t.descend here pieces
      else if piece = ['.', '.'] then t.descend here.dropLast pieces
      else if nameLimit < (Text.utf8 piece).length then .error .nameTooLong
      else
        let there := here ++ [String.ofList piece]
        match t.lookup there with
        | none => .error .notFound
        | some _ => t.descend there pieces

theorem descend_append_iff {t : FileTree} {l : Location} (ps qs : List (List Char))
    {here : Location} : t.descend here (ps ++ qs) = .ok l ↔
      ∃ mid, t.descend here ps = .ok mid ∧ t.descend mid qs = .ok l := by
  induction ps generalizing here with
  | nil => simp [descend]
  | cons p ps ih =>
    rw [List.cons_append, descend, descend]
    split
    · simp
    · simp
    · split
      · exact ih
      · split
        · exact ih
        · split
          · simp
          · dsimp only
            split
            · simp
            · exact ih

theorem descend_names {t : FileTree} {l : Location} {names : List (List Char)}
    (hn : ∀ name ∈ names, Path.IsName name) {here : Location}
    (h : t.descend here names = .ok l) : l = here ++ names.map String.ofList := by
  induction names generalizing here with
  | nil =>
    simp only [descend, Except.ok.injEq] at h
    simp [h]
  | cons name names ih =>
    have hname := hn name List.mem_cons_self
    rw [descend] at h
    split at h
    · cases h
    · cases h
    · rw [if_neg (by simp [hname.not_idle]), if_neg hname.ne_dots] at h
      split at h
      · cases h
      · dsimp only at h
        split at h
        · cases h
        · rw [ih (fun n hn' => hn n (List.mem_cons_of_mem _ hn')) h]
          simp

def follow (t : FileTree) (p : Path) : Except FileError Location :=
  if '\x00' ∈ p.chars then .error .containsNul
  else if p.chars.isEmpty then .error .notFound
  else if isTooLong p then .error .nameTooLong
  else t.descend (if p.isAbsolute then [] else t.workingDirectory) p.pieces

def read (t : FileTree) (p : Path) : Except FileError Bytes := do
  let l ← t.follow p
  match t.lookup l with
  | some (.file bytes) => .ok bytes
  | some .directory => .error .isDirectory
  | none => .error .notFound

def isFile (t : FileTree) (p : Path) : Bool := (t.read p).toOption.isSome

def files (t : FileTree) : List Location :=
  t.entries.toList.filterMap fun
    | (l, .file _) => some l
    | (_, .directory) => none

/-- What lies below a location: each file by its names from there. -/
def filesBelow (t : FileTree) (l : Location) : List (List String) :=
  t.files.filterMap fun f =>
    if l.isPrefixOf f && l.length < f.length then some (f.drop l.length) else none

def makeDirectories (t : FileTree) : Location → List String → Except FileError (Location × FileTree)
  | here, [] => .ok (here, t)
  | here, name :: names =>
    if nameLimit < (utf8Bytes name).length then .error .nameTooLong
    else
      let there := here ++ [name]
      match t.lookup there with
      | some (.file _) => .error .notDirectory
      | some .directory => t.makeDirectories there names
      | none => { t with entries := t.entries.insert there .directory }.makeDirectories there names

def consPlain? (c : Path.Component) (names : Option (List String)) : Option (List String) :=
  match c with
  | .named name => names.map (String.ofList name :: ·)
  | .current => names
  | .root | .parent => none

/-- The names in a path that stays at or below where it starts and has a name at its end. -/
def plainNames? (p : Path) : Option (List String) := p.components.foldr consPlain? (some [])

def endsInDot (p : Path) : Bool := (p.pieces.filter (· ≠ [])).getLast? = some ['.']

/-- Makes a directory and those on the way. The path must stay below the working directory. A dot
at its end names no new directory, so what is before it must be one already. -/
def makeDirectory (t : FileTree) (p : Path) : Except FileError FileTree :=
  if '\x00' ∈ p.chars then .error .containsNul
  else if isTooLong p then .error .nameTooLong
  else match plainNames? p with
    | none => .error .notFound
    | some names =>
      if endsInDot p then (t.follow p).map fun _ => t
      else (t.makeDirectories t.workingDirectory names).map (·.2)

def write (t : FileTree) (p : Path) (bytes : Bytes) : Except FileError FileTree :=
  if '\x00' ∈ p.chars then .error .containsNul
  else if isTooLong p then .error .nameTooLong
  else match plainNames? p, p.pieces.getLast? with
    | some names, some last =>
      if Path.isIdle last then .error .isDirectory
      else do
        let (here, t) ← t.makeDirectories t.workingDirectory names.dropLast
        let there := here ++ names.getLast?.toList
        if nameLimit < (Text.utf8 last).length then .error .nameTooLong
        else match t.lookup there with
          | some .directory => .error .isDirectory
          | _ => .ok { t with entries := t.entries.insert there (.file bytes) }
    | _, _ => .error .notFound

def remove (t : FileTree) (p : Path) : Except FileError FileTree := do
  let _ ← t.read p
  let l ← t.follow p
  .ok { t with entries := t.entries.erase l }

end FileTree

end RefScan
