import RefScan.CommandLine

/-!
# Reading command lines

Words are read from left to right. An option takes its value from the same word or from the next
one. A value in a word of its own is looked at late, when the next known option or the argument
proper begins or the words are over; an unknown option that comes first is reported instead. The
first mistake counts.
-/

namespace RefScan.CommandLine

/-- Before and after the subcommand, different options are known. -/
inductive Level where
  | top
  | scan
  | graph
  | all
  | candidates
deriving DecidableEq, Repr

inductive Flag where
  | help
  | verbose
  | recursive
  | json
deriving DecidableEq, Repr

inductive Setting where
  | config
  | classPath
  | encoding
  | exclude
  | depth
deriving DecidableEq, Repr

inductive Switch where
  | flag (f : Flag)
  | setting (s : Setting)
deriving DecidableEq, Repr

def Level.ofName? : String → Option Level
  | "scan" => some .scan
  | "candidates" => some .candidates
  | "graph" => some .graph
  | "all" => some .all
  | _ => none

def isSubcommand (w : String) : Bool := (Level.ofName? w).isSome || w = "help"

def Level.knows (level : Level) : Switch → Bool
  | .flag .help | .flag .verbose => true
  | .flag .recursive => (level matches .scan | .graph | .all)
  | .flag .json => (level matches .scan | .graph | .all | .candidates)
  | .setting .config => (level matches .top)
  | .setting .encoding => (level matches .scan | .graph | .all | .candidates)
  | .setting _ => (level matches .scan | .graph | .all)

def Switch.ofLong? : String → Option Switch
  | "help" => some (.flag .help)
  | "verbose" => some (.flag .verbose)
  | "recursive" => some (.flag .recursive)
  | "json" => some (.flag .json)
  | "config" => some (.setting .config)
  | "classpath" => some (.setting .classPath)
  | "encoding" => some (.setting .encoding)
  | "exclude" => some (.setting .exclude)
  | "depth" => some (.setting .depth)
  | _ => none

def Switch.ofShort? : Char → Option Switch
  | 'h' => some (.flag .help)
  | 'v' => some (.flag .verbose)
  | 'r' => some (.flag .recursive)
  | 'c' => some (.setting .config)
  | 'p' => some (.setting .classPath)
  | 'e' => some (.setting .encoding)
  | 'x' => some (.setting .exclude)
  | _ => none

def Level.long? (level : Level) (name : String) : Option Switch :=
  (Switch.ofLong? name).filter level.knows

def Level.short? (level : Level) (c : Char) : Option Switch :=
  (Switch.ofShort? c).filter level.knows

def Level.takesArgument : Level → Bool
  | .scan | .graph | .candidates => true
  | .top | .all => false

structure Given where
  verbose : Option Nat := none
  config : Option String := none
  arguments : ScanArguments := {}
  argument : Option String := none
deriving DecidableEq, Repr

inductive Pending where
  | nothing
  | awaiting (s : Setting)
  | value (s : Setting) (text : String)
  | argument (text : String)
deriving DecidableEq, Repr

structure Reading where
  given : Given := {}
  pending : Pending := .nothing
  /-- An argument has begun; there is room for one only. -/
  hasArgument : Bool := false
  /-- All further words are arguments. -/
  onlyArguments : Bool := false
deriving DecidableEq, Repr

abbrev Result := Except UsageError

/-- A natural number below two to the sixty-fourth, with an optional plus sign. -/
def depth? (text : String) : Option Nat :=
  let digits := match text.toList with
    | '+' :: cs => cs
    | cs => cs
  if digits.isEmpty || !digits.all Char.isDigit then none
  else
    let n := digits.foldl (fun n c => n * 10 + (c.toNat - '0'.toNat)) 0
    if n < UInt64.size then some n else none

/-- Takes over the value of an option. Only directories and name beginnings may be repeated, and
paths must not be empty. -/
def Given.set (g : Given) (s : Setting) (text : String) : Result Given :=
  let a := g.arguments
  match s with
  | .config =>
    if g.config.isSome then .error .repeatedArgument
    else if text.isEmpty then .error .invalidValue
    else .ok { g with config := some text }
  | .classPath =>
    if text.isEmpty then .error .invalidValue
    else .ok { g with arguments := { a with classPath := a.classPath ++ [text] } }
  | .encoding =>
    if a.encoding.isSome then .error .repeatedArgument
    else .ok { g with arguments := { a with encoding := some text } }
  | .exclude => .ok { g with arguments := { a with exclude := a.exclude ++ [text] } }
  | .depth =>
    if a.depth.isSome then .error .repeatedArgument
    else match depth? text with
      | some n => .ok { g with arguments := { a with depth := some n } }
      | none => .error .unreadableValue

def maxVerbosity : Nat := 255

def Given.raise (g : Given) (f : Flag) : Result Given :=
  let a := g.arguments
  match f with
  | .help => .error .helpAsked
  | .verbose => .ok { g with verbose := some (min (g.verbose.getD 0 + 1) maxVerbosity) }
  | .recursive =>
    if a.recursive then .error .repeatedArgument
    else .ok { g with arguments := { a with recursive := true } }
  | .json =>
    if a.json then .error .repeatedArgument
    else .ok { g with arguments := { a with json := true } }

def Reading.settle (level : Level) (r : Reading) : Result Reading :=
  match r.pending with
  | .nothing => .ok r
  | .awaiting _ => .error .invalidValue
  | .value s text => do .ok { r with given := ← r.given.set s text, pending := .nothing }
  | .argument text =>
    if level = .candidates && text.isEmpty then .error .invalidValue
    else .ok { r with given := { r.given with argument := some text }, pending := .nothing }

def Reading.flag (level : Level) (r : Reading) (f : Flag) : Result Reading := do
  let r ← r.settle level
  .ok { r with given := ← r.given.raise f }

def Reading.attached (level : Level) (r : Reading) (s : Setting) (text : String) :
    Result Reading := do
  let r ← r.settle level
  .ok { r with given := ← r.given.set s text }

def Reading.await (level : Level) (r : Reading) (s : Setting) : Result Reading := do
  let r ← r.settle level
  .ok { r with pending := .awaiting s }

/-- A word of short options behind its hyphen. The first one with a value takes all that is left
of the word; an equals sign before the value is dropped. -/
def Reading.cluster (level : Level) : Reading → List Char → Result Reading
  | r, [] => .ok r
  | r, c :: cs =>
    match level.short? c with
    | none => .error .unknownArgument
    | some (.flag f) => do (← r.flag level f).cluster level cs
    | some (.setting s) =>
      match cs with
      | [] => r.await level s
      | '=' :: text => r.attached level s (String.ofList text)
      | text => r.attached level s (String.ofList text)

def Reading.long (level : Level) (r : Reading) (cs : List Char) : Result Reading :=
  let name := cs.takeWhile (· != '=')
  let text? := match cs.drop name.length with
    | [] => none
    | _ :: text => some (String.ofList text)
  match level.long? (String.ofList name), text? with
  | none, _ => .error .unknownArgument
  | some (.flag f), none => r.flag level f
  | some (.flag _), some _ => .error .tooManyValues
  | some (.setting s), none => r.await level s
  | some (.setting s), some text => r.attached level s text

/-- A word that is no option. At the top there is no room for it, and it was meant as a subcommand;
the name of one comes here only behind `--`, where it is out of place. -/
def Reading.plain (level : Level) (r : Reading) (w : String) : Result Reading :=
  if level.takesArgument && !r.hasArgument then do
    let r ← r.settle level
    .ok { r with pending := .argument w, hasArgument := true }
  else if level = .top && !isSubcommand w then .error .invalidSubcommand
  else .error .unknownArgument

def Reading.word (level : Level) (r : Reading) (w : String) : Result Reading :=
  if r.onlyArguments then r.plain level w
  else match w.toList with
    | ['-', '-'] => .ok { r with onlyArguments := true }
    | '-' :: '-' :: cs => r.long level cs
    | '-' :: c :: cs => r.cluster level (c :: cs)
    | _ =>
      match r.pending with
      | .awaiting s => .ok { r with pending := .value s w }
      | _ => r.plain level w

def Reading.allowsSubcommand (r : Reading) : Bool :=
  !r.onlyArguments && !(r.pending matches .awaiting _)

def readArguments (level : Level) : Reading → List String → Result Given
  | r, [] => do
    let r ← r.settle level
    if level.takesArgument && r.given.argument.isNone then .error .missingArgument
    else .ok r.given
  | r, w :: ws => do readArguments level (← r.word level w) ws

def readHelp : List String → UsageError
  | [] => .helpAsked
  | [w] => if isSubcommand w then .helpAsked else .invalidSubcommand
  | _ => .invalidSubcommand

def command? (level : Level) (g : Given) : Option Command :=
  let argument := g.argument.getD ""
  match level with
  | .scan => some (.scan argument g.arguments)
  | .graph => some (.graph argument g.arguments)
  | .all => some (.all g.arguments)
  | .candidates => some (.candidates argument g.arguments.encoding g.arguments.json)
  | .top => none

/-- The whole call. A count of `-v` after the subcommand replaces one before it. -/
def assemble (top : Given) (level : Level) (sub : Given) : Result CommandLine :=
  match command? level sub with
  | none => .error .missingSubcommand
  | some command => .ok {
      config := top.config.getD defaultConfig
      verbosity := (sub.verbose <|> top.verbose).getD 0
      command }

/-- Reads the words from the top on. Mistakes after the subcommand count before a pending one
ahead of it. -/
def readTop : Reading → List String → Result CommandLine
  | r, [] => do
    let r ← r.settle .top
    if r.given.verbose.isNone && r.given.config.isNone then .error .nothingGiven
    else .error .missingSubcommand
  | r, w :: ws =>
    if r.allowsSubcommand && w = "help" then .error (readHelp ws)
    else if r.allowsSubcommand then
      match Level.ofName? w with
      | some level => do
        let sub ← readArguments level {} ws
        let r ← r.settle .top
        assemble r.given level sub
      | none => do readTop (← r.word .top w) ws
    else do readTop (← r.word .top w) ws

def read (words : List String) : Result CommandLine := readTop {} words

end RefScan.CommandLine
