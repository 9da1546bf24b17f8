import RefScan.ClassPath
import RefScan.CommandLine
import RefScan.Config
import RefScan.Exclusion

/-!
# Settings

What a scanning command works with: the configuration, overruled by the arguments of the call.
-/

namespace RefScan

structure Settings where
  classPath : ClassPath
  options : ScanOptions
  exclusion : PrefixList
  json : Bool
deriving DecidableEq, Repr

structure EncodingError where
  label : String
  cause : DecodeError
deriving DecidableEq, Repr

def EncodingError.context (e : EncodingError) : String := s!"Invalid --encoding '{e.label}'"

def EncodingError.message (e : EncodingError) : String := e.context ++ ": " ++ e.cause.message

def askedEncoding (label : String) : Except EncodingError Encoding :=
  (Encoding.ofLabel label).mapError (⟨label, ·⟩)

namespace Settings

/-- Directories of the call replace the configured ones, name beginnings add to them. -/
def resolve (config : Config) (configPath : Path) (a : ScanArguments) :
    Except EncodingError Settings := do
  let encoding ← match a.encoding with
    | none => pure config.scan.encoding
    | some label => askedEncoding label
  pure {
    classPath := ⟨if a.classPath.isEmpty then config.resolvedRoots configPath
      else a.classPath.map Path.mk⟩
    options := {
      encoding
      recursive := config.scan.recursive || a.recursive
      maxDepth := a.depth <|> config.scan.maxDepth }
    exclusion := PrefixList.extend ⟨config.prefixes⟩ a.exclude
    json := a.json }

end Settings

end RefScan
