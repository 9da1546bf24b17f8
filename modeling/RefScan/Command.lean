import RefScan.ClassPath.Source
import RefScan.Json
import RefScan.Scan.Report
import RefScan.Settings

/-!
# Commands

What each command prints, given the files it finds. Output is plain text, or JSON on request. A
command that fails prints its message, followed by the causes, on the error stream.
-/

namespace RefScan

structure Outcome where
  exitCode : Nat := 0
  output : String := ""
  errors : String := ""
deriving DecidableEq, Repr

inductive CommandError where
  | encoding (e : EncodingError)
  | notInClassPath (type : String) (cause : ResolveError)
  | unreadableFile (file : String) (cause : FileError)
  | scan (e : ScanError)

/-- The message and then its causes, the immediate one first. -/
def CommandError.messages : CommandError → List String
  | .encoding e => [e.context, e.cause.message]
  | .notInClassPath type cause => [s!"'{type}' is not in the class path", cause.message]
  | .unreadableFile file cause => [s!"Failed to read {file}", cause.message]
  | .scan e => [e.message, e.causeMessage]

def UsageError.outcome : UsageError → Outcome
  | .helpAsked => { output := CommandLine.usage ++ "\n" }
  | e => { exitCode := e.exitCode, errors := s!"error: {e.message}\n\n{CommandLine.usage}\n" }

def CommandError.outcome (e : CommandError) : Outcome :=
  { exitCode := 1, errors := "Error: " ++ ": ".intercalate e.messages ++ "\n" }

namespace Command

def lines (xs : List String) : String := "\n".intercalate xs

def names (found : Std.ExtTreeSet TypeName) : List String := found.toList.map (·.name)

def scanStatsJson (s : ScanStats) : Json :=
  .object [("expanded", .number s.expanded), ("candidates", .number s.candidates),
    ("unresolved", .number s.unresolved), ("excluded", .number s.excluded),
    ("abandoned", .number s.abandoned)]

def renderReport (root : TypeName) (report : ScanReport) (json : Bool) : String :=
  let found := names report.found
  if json then
    (Json.object [("root", .text root.name), ("found", .texts found),
      ("stats", scanStatsJson report.stats)]).render
  else if found.isEmpty then s!"No references found for '{root}'"
  else lines found

def renderCandidates (candidates : Candidates) (json : Bool) : String :=
  if json then (Json.texts candidates.toList).render else lines candidates.toList

def renderGraph (root : TypeName) (graph : Graph) (json : Bool) : String :=
  let stats := graph.stats
  if json then
    (Json.object [("root", .text root.name),
      ("edges", .array (graph.edges.map fun r =>
        .object [("from", .text r.source.name), ("to", .text r.target.name)])),
      ("stats", .object [("types", .number stats.types), ("expanded", .number stats.expanded),
        ("references", .number stats.references)])]).render
  else
    lines (graph.edges.map (fun r => s!"{r.source} -> {r.target}") ++
      [s!"# {stats.types} types, {stats.references} references, {stats.expanded} expanded"])

abbrev RootResult := TypeName × Except ScanError (Std.ExtTreeSet TypeName)

def rootJson : RootResult → String × Json
  | (root, .ok found) => (root.name, .texts (names found))
  | (root, .error e) => (root.name, .object [("error", .text e.message)])

/-- A scan that failed has no lines here; `rootErrors` reports it. -/
def rootLines : RootResult → List String
  | (root, .ok found) => s!"{root} ({found.size})" :: (names found).map ("  " ++ ·)
  | (_, .error _) => []

def rootErrors : RootResult → List String
  | (_, .ok _) => []
  | (root, .error e) => [s!"{root}: " ++ e.message ++ "\n"]

def renderAll (results : List RootResult) (json : Bool) : String :=
  if json then (Json.object (results.map rootJson)).render
  else if results.isEmpty then "No compiled units in the class path"
  else lines (results.flatMap rootLines)

def rootOf (s : Settings) (tree : FileTree) (type : String) : Except CommandError TypeName :=
  (s.classPath.resolve tree type).mapError (.notInClassPath type)

def runScan (s : Settings) (tree : FileTree) (type : String) : Except CommandError Outcome := do
  let root ← rootOf s tree type
  let report ← ((s.classPath.source tree).report (some root) s.options
    s.exclusion.exclusion?).result.mapError .scan
  pure { output := renderReport root report s.json ++ "\n" }

def runGraph (s : Settings) (tree : FileTree) (type : String) : Except CommandError Outcome := do
  let root ← rootOf s tree type
  let graph ← ((s.classPath.source tree).graph (some root) { s.options with recursive := true }
    s.exclusion.exclusion?).result.mapError .scan
  pure { output := renderGraph root graph s.json ++ "\n" }

def runAll (s : Settings) (tree : FileTree) : Outcome :=
  let roots := (s.classPath.listTypes tree).toList.map TypeName.mk
  let results : List RootResult :=
    ((s.classPath.source tree).scanMany roots s.options s.exclusion.exclusion?).map
      fun (root, traced) => (root, traced.result)
  { output := renderAll results s.json ++ "\n"
    errors := if s.json then "" else String.join (results.flatMap rootErrors) }

def runCandidates (tree : FileTree) (file : String) (encoding : Encoding) (json : Bool) :
    Except CommandError Outcome := do
  let bytes ← (tree.read ⟨file⟩).mapError (.unreadableFile file)
  pure { output := renderCandidates (.ofBytes encoding bytes) json ++ "\n" }

end Command

namespace CommandLine

def attempt (tree : FileTree) (c : CommandLine) : Except CommandError Outcome := do
  let config := Config.load tree ⟨c.config⟩
  let settings := fun a => (Settings.resolve config ⟨c.config⟩ a).mapError CommandError.encoding
  match c.command with
  | .scan type a => Command.runScan (← settings a) tree type
  | .graph type a => Command.runGraph (← settings a) tree type
  | .all a => pure (Command.runAll (← settings a) tree)
  | .candidates file label json =>
    let encoding ← match label with
      | none => pure config.scan.encoding
      | some label => (askedEncoding label).mapError CommandError.encoding
    Command.runCandidates tree file encoding json

def run (tree : FileTree) (c : CommandLine) : Outcome :=
  match c.attempt tree with
  | .ok outcome => outcome
  | .error e => e.outcome

end CommandLine

end RefScan
