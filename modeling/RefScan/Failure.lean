/-!
# What can go wrong in a scan

Each failure names its cause; the wording is in the `message` functions alone.
-/

namespace RefScan

inductive DecodeError where
  | unsupportedEncoding (label : String)
deriving DecidableEq, Repr

/-- A type whose bytes cannot be had. `reason` is the operating system's own text. -/
inductive LoadError where
  | notFound (name : String)
  | unreadable (name reason : String)
deriving DecidableEq, Repr

inductive ResolveError where
  | notFound (name : String)
  | broken (name reason : String)
deriving DecidableEq, Repr

/-- Only the root of a scan can make it fail. -/
inductive ScanError where
  | load (root : String) (cause : LoadError)
  | decode (root : String) (cause : DecodeError)
deriving DecidableEq, Repr

def DecodeError.message : DecodeError → String
  | .unsupportedEncoding label => s!"Unsupported encoding: {label}"

def LoadError.message : LoadError → String
  | .notFound name => s!"No compiled unit found for {name}"
  | .unreadable name reason => s!"Failed to read {name}: {reason}"

def ResolveError.name : ResolveError → String
  | .notFound name => name
  | .broken name _ => name

def ResolveError.message : ResolveError → String
  | .notFound name => s!"Type not found: {name}"
  | .broken name reason => s!"Type {name} could not be loaded: {reason}"

def ScanError.root : ScanError → String
  | .load root _ => root
  | .decode root _ => root

def ScanError.causeMessage : ScanError → String
  | .load _ cause => cause.message
  | .decode _ cause => cause.message

def ScanError.message : ScanError → String
  | .load root cause => s!"Cannot load root type {root}: " ++ cause.message
  | .decode root cause => s!"Cannot decode root type {root}: " ++ cause.message

end RefScan
