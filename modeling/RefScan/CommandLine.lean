import RefScan.Path

/-!
# Command lines

The command of a program call with its arguments, and the ways in which a call can be wrong.
`CommandLine/Reader.lean` reads one from the words of a call.
-/

namespace RefScan

/-- Arguments that all scanning commands share. They win over the configuration. -/
structure ScanArguments where
  classPath : List String := []
  recursive : Bool := false
  encoding : Option String := none
  exclude : List String := []
  depth : Option Nat := none
  json : Bool := false
deriving DecidableEq, Repr

inductive Command where
  | scan (type : String) (arguments : ScanArguments)
  | graph (type : String) (arguments : ScanArguments)
  | all (arguments : ScanArguments)
  | candidates (file : String) (encoding : Option String) (json : Bool)
deriving DecidableEq, Repr

structure CommandLine where
  config : String
  verbosity : Nat
  command : Command
deriving DecidableEq, Repr

def CommandLine.defaultConfig : String := "classref.toml"

/-- Why a call has no command to run. Help that was asked for is no mistake. -/
inductive UsageError where
  | helpAsked
  | nothingGiven
  | missingSubcommand
  | invalidSubcommand
  | unknownArgument
  | missingArgument
  | invalidValue
  | unreadableValue
  | tooManyValues
  | repeatedArgument
deriving DecidableEq, Repr

def UsageError.message : UsageError → String
  | .helpAsked => "help asked for"
  | .nothingGiven | .missingSubcommand => "a subcommand is required"
  | .invalidSubcommand => "unrecognized subcommand"
  | .unknownArgument => "unexpected argument"
  | .missingArgument => "a required argument was not provided"
  | .invalidValue => "a value is required"
  | .unreadableValue => "invalid value"
  | .tooManyValues => "unexpected value"
  | .repeatedArgument => "an argument cannot be used multiple times"

def CommandLine.usage : String :=
  "Usage: refscan [--config FILE] [--verbose] scan|graph TYPE [SCAN OPTIONS]\n" ++
  "       refscan [--config FILE] [--verbose] all [SCAN OPTIONS]\n" ++
  "       refscan [--config FILE] [--verbose] candidates FILE [--encoding LABEL] [--json]\n" ++
  "Scan options: --classpath DIR, --recursive, --encoding LABEL, --exclude PREFIX, --depth N, --json"

def UsageError.exitCode : UsageError → Nat
  | .helpAsked => 0
  | _ => 2

end RefScan
